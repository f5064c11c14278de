/-
Definitions: where the thing at a position is defined.
-/
import EmbeddedMarkup.Protocol.Basic

namespace EmbeddedMarkup

/-- A range in a document. -/
structure Location where
  uri : Url
  range : Range
  deriving DecidableEq, Repr, Inhabited

namespace Location

/-- The location that `j` is. -/
def ofJson? (j : Json) : Option Location := do
  let fields ← j.record? ["uri", "range"]
  return {
    uri := ← Json.required? fields "uri" Url.ofJson?
    range := ← Json.required? fields "range" Range.ofJson? }

/-- A location as JSON. -/
def toJson (l : Location) : Json :=
  .obj [("uri", l.uri.toJson), ("range", l.range.toJson)]

end Location

/-- A location together with what leads to it. -/
structure LocationLink where
  /-- What leads there, in the document that was asked about. -/
  origin : Option Range
  targetUri : Url
  /-- The whole of what is defined. -/
  targetRange : Range
  /-- The part to be shown first. -/
  targetSelection : Range
  deriving DecidableEq, Repr, Inhabited

namespace LocationLink

/-- The link that `j` is. -/
def ofJson? (j : Json) : Option LocationLink := do
  let fields ← j.record?
    ["originSelectionRange", "targetUri", "targetRange", "targetSelectionRange"]
  return {
    origin := ← Json.optional? fields "originSelectionRange" Range.ofJson?
    targetUri := ← Json.required? fields "targetUri" Url.ofJson?
    targetRange := ← Json.required? fields "targetRange" Range.ofJson?
    targetSelection := ← Json.required? fields "targetSelectionRange" Range.ofJson? }

/-- A link as JSON. -/
def toJson (l : LocationLink) : Json :=
  .obj (Json.present [("originSelectionRange", l.origin.map Range.toJson),
    ("targetUri", some l.targetUri.toJson), ("targetRange", some l.targetRange.toJson),
    ("targetSelectionRange", some l.targetSelection.toJson)])

end LocationLink

/-- The places where something is defined. -/
inductive Definition where
  | one (location : Location)
  | many (locations : List Location)
  | links (links : List LocationLink)
  deriving DecidableEq, Repr, Inhabited

namespace Definition

/-- The definition that `j` is. -/
def ofJson? (j : Json) : Option Definition :=
  ((Location.ofJson? j).map one).or
    (((j.list? Location.ofJson?).map many).or ((j.list? LocationLink.ofJson?).map links))

/-- A definition as JSON. -/
def toJson : Definition → Json
  | one l => l.toJson
  | many ls => .arr (ls.map Location.toJson)
  | links ls => .arr (ls.map LocationLink.toJson)

end Definition

end EmbeddedMarkup
