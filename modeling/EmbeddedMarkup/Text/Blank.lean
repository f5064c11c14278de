/-
Blank characters: those with the Unicode property White_Space. A trigger may have blanks between
its name and its opener, and header fields and typed text are trimmed of them.
-/
import EmbeddedMarkup.Text.Basic

namespace EmbeddedMarkup.Text

/-- The code points with the property White_Space, as inclusive ranges in ascending order. -/
def blankRanges : List (Nat × Nat) :=
  [(0x09, 0x0D), (0x20, 0x20), (0x85, 0x85), (0xA0, 0xA0), (0x1680, 0x1680), (0x2000, 0x200A),
    (0x2028, 0x2029), (0x202F, 0x202F), (0x205F, 0x205F), (0x3000, 0x3000)]

/-- Whether `c` has the property White_Space. -/
def isBlank (c : Char) : Bool :=
  blankRanges.any fun r => r.1 ≤ c.toNat && c.toNat ≤ r.2

/-- `t` without leading blanks. -/
def trimStart (t : Text) : Text :=
  t.dropWhile isBlank

/-- `t` without trailing blanks. -/
def trimEnd (t : Text) : Text :=
  (t.reverse.dropWhile isBlank).reverse

/-- `t` without leading and trailing blanks. -/
def trim (t : Text) : Text :=
  trimEnd (trimStart t)

end EmbeddedMarkup.Text
