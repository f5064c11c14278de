/-
The line table of a text, and the conversions between byte offsets and editor positions that it
serves. Only a line feed ends a line; a position beyond the end of its line stands for that end, and
one between the halves of a surrogate pair for the end of the character.
-/
import EmbeddedMarkup.Text.Basic
import EmbeddedMarkup.Text.Position

namespace EmbeddedMarkup

/-- One line of a text, without its line feed. -/
structure Line where
  /-- The byte offset of the first character. -/
  start : Nat
  text : Text
  deriving DecidableEq, Repr, Inhabited

namespace Line

/-- The byte offset just behind the last character of the line. -/
def stop (l : Line) : Nat :=
  l.start + Text.byteLength l.text

/-- The lines of a text that begins at byte offset `start`. -/
def split (start : Nat) : Text → List Line
  | [] => [⟨start, []⟩]
  | c :: t =>
    if c = '\n' then
      ⟨start, []⟩ :: split (start + 1) t
    else
      match split (start + c.utf8Size) t with
      | [] => [⟨start, [c]⟩]
      | l :: rest => ⟨start, c :: l.text⟩ :: rest

/-- The bytes before column `units` of a line: whole characters up to the first boundary at or
behind the column, or all of them. -/
def bytesToColumn : Text → Nat → Nat
  | [], _ => 0
  | c :: t, units =>
    if units = 0 then 0 else c.utf8Size + bytesToColumn t (units - Text.charUnits c)

end Line

/-- The lines of a text in order, with the byte length of the whole. -/
structure LineTable where
  /-- The byte length of the text. -/
  length : Nat
  /-- The lines, of which there is at least one. -/
  lines : List Line
  deriving DecidableEq, Repr, Inhabited

namespace LineTable

/-- The line table of `t`. -/
def ofText (t : Text) : LineTable where
  length := Text.byteLength t
  lines := Line.split 0 t

/-- The last line that begins at or before byte offset `o`, with its number. The search knows that
the lines are in ascending order. -/
def lineAt (lines : List Line) (o : Nat) : Nat × Line :=
  let before := lines.takeWhile fun l => l.start ≤ o
  (before.length - 1, before.getLast?.getD ⟨0, []⟩)

/-- The position of byte offset `o`, which is first moved to the end of the text when it lies beyond
it. There is none for an offset inside a character. -/
def position? (table : LineTable) (o : Nat) : Option Position := do
  let o := min o table.length
  let (number, line) := lineAt table.lines o
  let (before, _) ← Text.splitAt? line.text (min (o - line.start) (Text.byteLength line.text))
  return ⟨number, Text.unitLength before⟩

/-- The byte offset of position `p`; there is none when its line does not exist. -/
def offset? (table : LineTable) (p : Position) : Option Nat :=
  table.lines[p.line]?.map fun line => line.start + Line.bytesToColumn line.text p.character

/-- The byte offsets of both ends of `r`, when both exist and are in order. -/
def span? (table : LineTable) (r : Range) : Option (Nat × Nat) := do
  let s ← table.offset? r.start
  let e ← table.offset? r.stop
  if s ≤ e then return (s, e) else none

end LineTable

end EmbeddedMarkup
