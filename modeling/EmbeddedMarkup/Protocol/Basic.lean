/-
The common parts of messages: URLs, positions, ranges, edits and content changes as JSON.
-/
import EmbeddedMarkup.Json.Shape
import EmbeddedMarkup.Text.Change

namespace EmbeddedMarkup

/-! ## Places -/

/-- The URL that `j` is. -/
def Url.ofJson? (j : Json) : Option Url :=
  j.text?.bind Url.parse?

/-- A URL as JSON. -/
def Url.toJson (u : Url) : Json :=
  .str u.toString

/-- The position that `j` is; both parts are unsigned 32-bit integers. -/
def Position.ofJson? (j : Json) : Option Position := do
  let fields ← j.record? ["line", "character"]
  return {
    line := ← Json.required? fields "line" Json.nat32?
    character := ← Json.required? fields "character" Json.nat32? }

/-- A position as JSON. -/
def Position.toJson (p : Position) : Json :=
  .obj [("line", .nat p.line), ("character", .nat p.character)]

/-- The range that `j` is. -/
def Range.ofJson? (j : Json) : Option Range := do
  let fields ← j.record? ["start", "end"]
  return {
    start := ← Json.required? fields "start" Position.ofJson?
    stop := ← Json.required? fields "end" Position.ofJson? }

/-- A range as JSON. -/
def Range.toJson (r : Range) : Json :=
  .obj [("start", r.start.toJson), ("end", r.stop.toJson)]

/-! ## Edits -/

/-- A replacement of a range of a document by a text. -/
structure TextEdit where
  range : Range
  newText : String
  deriving DecidableEq, Repr, Inhabited

/-- The edit that `j` is. -/
def TextEdit.ofJson? (j : Json) : Option TextEdit := do
  let fields ← j.record? ["range", "newText"]
  return {
    range := ← Json.required? fields "range" Range.ofJson?
    newText := ← Json.required? fields "newText" Json.str? }

/-- An edit as JSON. -/
def TextEdit.toJson (e : TextEdit) : Json :=
  .obj [("range", e.range.toJson), ("newText", .str e.newText)]

/-- The content change that `j` is. -/
def Change.ofJson? (j : Json) : Option Change := do
  let fields ← j.record? ["range", "rangeLength", "text"]
  return {
    range := ← Json.optional? fields "range" Range.ofJson?
    rangeLength := ← Json.optional? fields "rangeLength" Json.nat32?
    text := ← Json.required? fields "text" Json.text? }

end EmbeddedMarkup
