/-
Snippets: insertion texts with tab stops, placeholders and choices in braces, and backslash escapes.
Here a snippet is reduced to the plain text it stands for before anything is filled in.
-/
import EmbeddedMarkup.Text.Basic

namespace EmbeddedMarkup.Snippet

/-! ## Pieces -/

/-- What the next few characters of a snippet mean. -/
inductive Piece where
  /-- A character of the text, escaped or not. -/
  | text (c : Char)
  /-- A tab stop or a choice: nothing, until it is filled in. -/
  | hole
  /-- The start of a placeholder, up to its default text. -/
  | opening
  /-- A closing brace. -/
  | brace
  deriving DecidableEq, Repr

/-- Whether a backslash before `c` is an escape. -/
def isEscapable (c : Char) : Bool :=
  c = '$' || c = '}' || c = '\\'

/-- What follows the next closing brace. -/
def afterBrace (t : Text) : Text :=
  (t.dropWhile (· ≠ '}')).drop 1

/-- The piece that a dollar, an opening brace and digits begin, and what follows it: a colon makes
it a placeholder, a closing brace a tab stop; anything else is a choice and ends at the next
brace. -/
def braced : Text → Piece × Text
  | [] => (.hole, [])
  | c :: t =>
    if c = ':' then (.opening, t)
    else if c = '}' then (.hole, t)
    else (.hole, afterBrace t)

/-- The piece that a dollar begins, and what follows it. -/
def dollar : Text → Piece × Text
  | [] => (.text '$', [])
  | c :: t =>
    if c.isDigit then (.hole, t.dropWhile Char.isDigit)
    else if c = '{' then braced (t.dropWhile Char.isDigit)
    else (.text '$', c :: t)

/-- The piece that a backslash begins, and what follows it. -/
def backslash : Text → Piece × Text
  | [] => (.text '\\', [])
  | c :: t => if isEscapable c then (.text c, t) else (.text '\\', c :: t)

/-- The first piece of the snippet `c :: t`, and what follows it. -/
def piece (c : Char) (t : Text) : Piece × Text :=
  if c = '\\' then backslash t
  else if c = '}' then (.brace, t)
  else if c = '$' then dollar t
  else (.text c, t)

/-- What follows a brace is no longer than the text. -/
theorem afterBrace_length_le (t : Text) : (afterBrace t).length ≤ t.length := by
  have := (List.dropWhile_suffix (l := t) (· ≠ '}')).length_le
  simp only [afterBrace, List.length_drop]
  omega

/-- What follows a braced piece is no longer than the text. -/
theorem braced_length_le (t : Text) : (braced t).2.length ≤ t.length := by
  unfold braced
  split
  · simp
  · rename_i c t
    have := afterBrace_length_le t
    split
    · simp
    · split
      · simp
      · simp; omega

/-- What follows a piece that a dollar begins is no longer than the text. -/
theorem dollar_length_le (t : Text) : (dollar t).2.length ≤ t.length := by
  unfold dollar
  split
  · simp
  · rename_i c t
    have := (List.dropWhile_suffix (l := t) Char.isDigit).length_le
    have := braced_length_le (t.dropWhile Char.isDigit)
    split
    · simp; omega
    · split
      · simp; omega
      · simp

/-- What follows a piece is no longer than the text behind its first character. -/
theorem piece_length_le (c : Char) (t : Text) : (piece c t).2.length ≤ t.length := by
  unfold piece
  split
  · unfold backslash
    split
    · simp
    · split <;> simp
  · split
    · simp
    · split
      · exact dollar_length_le t
      · simp

/-! ## Plain text -/

/-- The plain text of a snippet read inside `depth` placeholders. A closing brace ends the innermost
placeholder, and is text outside of all. -/
def plainAt (depth : Nat) (t : Text) : Text :=
  match t with
  | [] => []
  | c :: t =>
    match (piece c t).1, depth with
    | .text c', _ => c' :: plainAt depth (piece c t).2
    | .hole, _ => plainAt depth (piece c t).2
    | .opening, _ => plainAt (depth + 1) (piece c t).2
    | .brace, 0 => '}' :: plainAt 0 (piece c t).2
    | .brace, depth + 1 => plainAt depth (piece c t).2
termination_by t.length
decreasing_by all_goals exact Nat.lt_succ_of_le (piece_length_le c t)

/-- The plain text that a snippet stands for. -/
def plain (t : Text) : Text :=
  plainAt 0 t

end EmbeddedMarkup.Snippet
