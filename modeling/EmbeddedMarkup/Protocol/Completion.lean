/-
Completions: proposals for what to write at a position.
-/
import EmbeddedMarkup.Protocol.Hover

namespace EmbeddedMarkup

/-- How accepting a proposal edits the document. -/
inductive CompletionEdit where
  | replace (edit : TextEdit)
  /-- One of two ranges is replaced, as the user likes: up to the position, or beyond it. -/
  | insertOrReplace (newText : String) (insert replace : Range)
  deriving DecidableEq, Repr, Inhabited

namespace CompletionEdit

/-- The edit that `j` is; one with a `range` is a plain replacement. -/
def ofJson? (j : Json) : Option CompletionEdit :=
  ((TextEdit.ofJson? j).map replace).or do
    let fields ← j.record? ["newText", "insert", "replace"]
    return insertOrReplace
      (← Json.required? fields "newText" Json.str?)
      (← Json.required? fields "insert" Range.ofJson?)
      (← Json.required? fields "replace" Range.ofJson?)

/-- An edit as JSON. -/
def toJson : CompletionEdit → Json
  | replace edit => edit.toJson
  | insertOrReplace newText i r =>
    .obj [("newText", .str newText), ("insert", i.toJson), ("replace", r.toJson)]

end CompletionEdit

/-- A proposal. What has no place in the document is only passed on. -/
structure CompletionItem where
  label : String
  edit : Option CompletionEdit
  /-- Further edits elsewhere in the document. -/
  additionalEdits : Option (List TextEdit)
  /-- All other fields. -/
  details : List (String × Json)
  deriving Repr, Inhabited

namespace CompletionItem

/-- The fields before the edits that are only passed on. -/
def leadingDetails : List (String × Bool × Shape) :=
  [Shape.may "labelDetails" (.record [Shape.may "detail" .string, Shape.may "description" .string]),
    Shape.may "kind" .int32, Shape.may "detail" .string,
    Shape.may "documentation" (.oneOf [.string, Shape.markup]), Shape.may "deprecated" .flag,
    Shape.may "preselect" .flag, Shape.may "sortText" .string, Shape.may "filterText" .string,
    Shape.may "insertText" .string, Shape.may "insertTextFormat" .int32,
    Shape.may "insertTextMode" .int32]

/-- The fields behind the edits that are only passed on. -/
def trailingDetails : List (String × Bool × Shape) :=
  [Shape.may "command" (.record [Shape.needs "title" .string, Shape.needs "command" .string,
      Shape.may "arguments" (.list .any)]),
    Shape.may "commitCharacters" (.list .string), Shape.may "data" .any,
    Shape.may "tags" (.list .int32)]

/-- The names of all fields in order. -/
def names : List String :=
  ["label"] ++ leadingDetails.map (·.1) ++ ["textEdit", "additionalTextEdits"] ++
    trailingDetails.map (·.1)

/-- The proposal that `j` is. -/
def ofJson? (j : Json) : Option CompletionItem := do
  let fields ← j.record? names
  return {
    label := ← Json.required? fields "label" Json.str?
    edit := ← Json.optional? fields "textEdit" CompletionEdit.ofJson?
    additionalEdits := ← Json.optional? fields "additionalTextEdits" (Json.list? TextEdit.ofJson?)
    details := ← Shape.reduceFields? (leadingDetails ++ trailingDetails) fields }

/-- A proposal as JSON. -/
def toJson (c : CompletionItem) : Json :=
  .obj (Json.present [("label", some (.str c.label)),
    ("textEdit", c.edit.map CompletionEdit.toJson),
    ("additionalTextEdits", c.additionalEdits.map fun es => .arr (es.map TextEdit.toJson))] ++
    c.details)

end CompletionItem

/-- Proposals: a bare list, or one that says whether typing on may bring more. -/
inductive Completion where
  | items (items : List CompletionItem)
  | list (isIncomplete : Bool) (items : List CompletionItem)
  deriving Repr, Inhabited

namespace Completion

/-- The proposals that `j` is. -/
def ofJson? (j : Json) : Option Completion :=
  ((j.list? CompletionItem.ofJson?).map items).or do
    let fields ← j.record? ["isIncomplete", "items"]
    return list (← Json.required? fields "isIncomplete" Json.bool?)
      (← Json.required? fields "items" (Json.list? CompletionItem.ofJson?))

/-- Proposals as JSON. -/
def toJson : Completion → Json
  | items is => .arr (is.map CompletionItem.toJson)
  | list isIncomplete is =>
    .obj [("isIncomplete", .bool isIncomplete), ("items", .arr (is.map CompletionItem.toJson))]

end Completion

/-- What made the editor ask for proposals. -/
structure CompletionContext where
  /-- The kind of occasion, by number. -/
  triggerKind : Int
  triggerCharacter : Option String
  deriving DecidableEq, Repr, Inhabited

namespace CompletionContext

/-- The context that `j` is. -/
def ofJson? (j : Json) : Option CompletionContext := do
  let fields ← j.record? ["triggerKind", "triggerCharacter"]
  return {
    triggerKind := ← Json.required? fields "triggerKind" Json.int32?
    triggerCharacter := ← Json.optional? fields "triggerCharacter" Json.str? }

/-- A context as JSON. -/
def toJson (c : CompletionContext) : Json :=
  .obj (Json.present [("triggerKind", some (.int c.triggerKind)),
    ("triggerCharacter", c.triggerCharacter.map .str)])

end CompletionContext

end EmbeddedMarkup
