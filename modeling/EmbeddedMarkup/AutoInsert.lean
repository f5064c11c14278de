/-
Automatic insertion: a change that types the end of an opening tag, or the equals sign of an
attribute, asks for what belongs behind it. What comes back is inserted unless the document has
changed or the text is there already.
-/
import EmbeddedMarkup.Inquiry
import EmbeddedMarkup.Settings.Basic
import EmbeddedMarkup.Snippet
import EmbeddedMarkup.Text.Blank

namespace EmbeddedMarkup

/-- Why a document changed. -/
inductive ChangeReason where
  | edit
  | undo
  | redo
  deriving DecidableEq, Repr, Inhabited

/-- Whether a kind of insertion is switched on. -/
def AutoInsertSettings.isEnabled (s : AutoInsertSettings) : InsertKind → Bool
  | .quote => s.autoQuote
  | .close => s.autoClose

namespace AutoInsert

/-- A change that asks for an insertion. -/
structure Trigger where
  kind : InsertKind
  /-- Where: right behind the typed text. -/
  position : Position
  typed : Text
  deriving DecidableEq, Repr, Inhabited

/-- What a text asks for, by its last character. -/
def kind? (typed : Text) : Option InsertKind :=
  match typed.getLast? with
  | some '=' => some .quote
  | some '>' => some .close
  | some '/' => some .close
  | _ => none

/-- The position behind a text that is inserted at `start`. -/
def positionAfter (start : Position) (t : Text) : Position :=
  if t.contains '\n' then
    ⟨start.line + Text.newlines t, Text.unitLength (t.reverse.takeWhile (· ≠ '\n')).reverse⟩
  else
    ⟨start.line, start.character + Text.unitLength t⟩

/-- The trigger in a list of changes: only the last one counts, and only if it is an edit that
inserts text without replacing any. -/
def detect? (changes : List Change) (reason : ChangeReason) (settings : AutoInsertSettings) :
    Option Trigger := do
  if reason ≠ .edit ∨ !settings.anyEnabled then none
  let change ← changes.getLast?
  let range ← change.range
  if range.start ≠ range.stop ∨ change.rangeLength.any (· ≠ 0) then none
  let kind ← kind? change.text
  if !settings.isEnabled kind then none
  return { kind, position := positionAfter range.start change.text, typed := change.text }

/-- Whether the typed text ends with the suggestion already. The first two bytes of the suggestion
are left aside: the slash that a closing tag begins with, or the tab stop in front of it. -/
def alreadyTyped (trigger : Trigger) (suggestion : Text) : Bool :=
  let tail := ((Text.splitAt? suggestion 2).map (·.2)).getD []
  tail.isSuffixOf (Text.trim trigger.typed)

/-- An insertion into one version of a document. -/
structure Insertion where
  uri : Url
  /-- The version it is meant for. -/
  version : Int
  position : Position
  text : Text
  deriving DecidableEq, Repr, Inhabited

/-- An insertion as an edit of the workspace. -/
def Insertion.toJson (i : Insertion) : Json :=
  let edit : TextEdit := ⟨Range.at i.position, String.ofList i.text⟩
  .obj [("documentChanges", .arr [.obj [
    ("textDocument", .obj [("uri", i.uri.toJson), ("version", .int i.version)]),
    ("edits", .arr [edit.toJson])]])]

/-- The inquiry for a trigger in version `version` of a document, if that is still current. -/
def inquire? (s : Session) (uri : Url) (version : Int) (trigger : Trigger) : Option Inquiry :=
  if s.isCurrent uri version then s.inquire? uri trigger.position else none

/-- The insertion for a trigger, once the outcome of its inquiry is known and the session is `s`. -/
def conclude? (s : Session) (settings : AutoInsertSettings) (uri : Url) (version : Int)
    (trigger : Trigger) (outcome : Option String) : Option Insertion := do
  let suggestion := (← outcome).toList
  if !settings.isEnabled trigger.kind then none
  if trigger.kind = .close ∧ alreadyTyped trigger suggestion then none
  if !s.isCurrent uri version then none
  return { uri, version, position := trigger.position, text := Snippet.plain suggestion }

/-- Resolves a trigger to an insertion. The steps are those that the editor takes while the service
is busy with the query, so none of them when it is not asked. -/
def resolve (s : Session) (settings : AutoInsertSettings) (uri : Url) (version : Int)
    (trigger : Trigger) (steps : List Session.Step) (reply : Option String) : Outcome Insertion :=
  match inquire? s uri version trigger with
  | none => ⟨none, s, []⟩
  | some i =>
    let query := Query.autoInsert trigger.kind
    let after := s.run steps
    let outcome := i.settle after query reply
    ⟨conclude? after settings uri version trigger outcome, after, i.calls query⟩

end AutoInsert

end EmbeddedMarkup
