/-
Content changes: what an editor sends when a document is edited, and their effect on the text.
-/
import EmbeddedMarkup.Text.Lines

namespace EmbeddedMarkup

/-- One edit of a document. -/
structure Change where
  /-- What is replaced: the whole document when absent. -/
  range : Option Range := none
  /-- The number of UTF-16 code units replaced, as the editor counts them. -/
  rangeLength : Option Nat := none
  /-- What stands there afterwards. -/
  text : Text
  deriving DecidableEq, Repr, Inhabited

namespace Change

/-- The text after one change. A change whose range does not resolve in `t` leaves it as it is. -/
def apply (t : Text) (c : Change) : Text :=
  match c.range with
  | none => c.text
  | some r =>
    (((LineTable.ofText t).span? r).bind fun (s, e) => Text.replace? t s e c.text).getD t

/-- The text after a list of changes, each resolved against the text left by the one before. -/
def applyAll (t : Text) (changes : List Change) : Text :=
  changes.foldl apply t

end Change

end EmbeddedMarkup
