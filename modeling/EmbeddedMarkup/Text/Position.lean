/-
Positions and ranges of an editor: a line number and a column in UTF-16 code units, both from zero.
-/

namespace EmbeddedMarkup

/-- A place in a document as an editor names it. -/
structure Position where
  /-- The line, from zero. -/
  line : Nat
  /-- The column in UTF-16 code units, from zero. -/
  character : Nat
  deriving DecidableEq, Repr, Inhabited

namespace Position

/-- Lexicographic order: by line, then by column. -/
protected def le (a b : Position) : Prop :=
  a.line < b.line ∨ (a.line = b.line ∧ a.character ≤ b.character)

instance : LE Position := ⟨Position.le⟩

instance (a b : Position) : Decidable (a ≤ b) :=
  inferInstanceAs (Decidable (a.line < b.line ∨ (a.line = b.line ∧ a.character ≤ b.character)))

end Position

/-- Two positions, in no particular order: the order is checked where a range is resolved. -/
structure Range where
  /-- Where the range begins. -/
  start : Position
  /-- Where the range ends, itself outside of it. -/
  stop : Position
  deriving DecidableEq, Repr, Inhabited

/-- The range without extent at `p`. -/
def Range.at (p : Position) : Range :=
  ⟨p, p⟩

end EmbeddedMarkup
