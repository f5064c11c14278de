/-
Decimal numerals: the digits of a natural number, and reading a numeral that has to fit into a given
number of bits.
-/
import EmbeddedMarkup.Text.Basic

namespace EmbeddedMarkup.Decimal

/-- The digits of `n`, without leading zeros. -/
def digits (n : Nat) : Text :=
  Nat.toDigits 10 n

/-- The number that the decimal digits `t` write. -/
def value (t : Text) : Nat :=
  t.foldl (fun n c => n * 10 + (c.toNat - '0'.toNat)) 0

/-- The number below `2 ^ bits` that `t` writes: one or more digits, leading zeros allowed, and
perhaps a plus sign before them. -/
def read? (bits : Nat) (t : Text) : Option Nat :=
  let ds := match t with
    | '+' :: ds => ds
    | ds => ds
  if !ds.isEmpty && ds.all Char.isDigit && value ds < Nat.pow 2 bits then some (value ds) else none

end EmbeddedMarkup.Decimal
