/-
Linked editing: ranges with the same text that are edited together.
-/
import EmbeddedMarkup.Protocol.Basic

namespace EmbeddedMarkup

/-- Ranges that are edited together. -/
structure LinkedRanges where
  ranges : List Range
  /-- What their text has to look like. -/
  wordPattern : Option String
  deriving DecidableEq, Repr, Inhabited

namespace LinkedRanges

/-- The linked ranges that `j` is. -/
def ofJson? (j : Json) : Option LinkedRanges := do
  let fields ← j.record? ["ranges", "wordPattern"]
  return {
    ranges := ← Json.required? fields "ranges" (Json.list? Range.ofJson?)
    wordPattern := ← Json.optional? fields "wordPattern" Json.str? }

/-- Linked ranges as JSON. -/
def toJson (l : LinkedRanges) : Json :=
  .obj (Json.present [("ranges", some (.arr (l.ranges.map Range.toJson))),
    ("wordPattern", l.wordPattern.map .str)])

end LinkedRanges

end EmbeddedMarkup
