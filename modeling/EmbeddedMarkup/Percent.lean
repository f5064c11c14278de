/-
Percent coding: bytes that may not stand for themselves are written as a percent sign and two
hexadecimal digits.
-/
import EmbeddedMarkup.Text.Utf8

namespace EmbeddedMarkup.Percent

/-- The upper-case hexadecimal digit for `n < 16`. -/
def hexDigit (n : Nat) : Char :=
  if n < 10 then Char.ofNat ('0'.toNat + n) else Char.ofNat ('A'.toNat + (n - 10))

/-- The value of a byte that is a hexadecimal digit. -/
def hexValue? (b : UInt8) : Option Nat :=
  if 0x30 ≤ b ∧ b ≤ 0x39 then some (b.toNat - 0x30)
  else if 0x41 ≤ b ∧ b ≤ 0x46 then some (b.toNat - 0x41 + 10)
  else if 0x61 ≤ b ∧ b ≤ 0x66 then some (b.toNat - 0x61 + 10)
  else none

/-- The three characters for one byte. -/
def triplet (b : UInt8) : Text :=
  ['%', hexDigit (b.toNat / 16), hexDigit (b.toNat % 16)]

/-- `t` with every byte outside of `keep` written as a triplet. -/
def encode (keep : UInt8 → Bool) (t : Text) : Text :=
  (Utf8.encode t).flatMap fun b => if keep b then [Char.ofNat b.toNat] else triplet b

/-- Resolves the triplets; a percent sign without two hexadecimal digits stands for itself. -/
def resolve : List UInt8 → List UInt8
  | [] => []
  | [a] => [a]
  | [a, b] => [a, b]
  | a :: b :: c :: rest =>
    if a = 0x25 then
      match hexValue? b, hexValue? c with
      | some h, some l => UInt8.ofNat (h * 16 + l) :: resolve rest
      | _, _ => a :: resolve (b :: c :: rest)
    else
      a :: resolve (b :: c :: rest)

/-- The bytes that `t` stands for. -/
def decodeBytes (t : Text) : List UInt8 :=
  resolve (Utf8.encode t)

/-- The text that `t` stands for, if its bytes are well formed. -/
def decode? (t : Text) : Option Text :=
  Utf8.decode? (decodeBytes t)

/-- Letters, digits and `-._~`, which never need to be coded. -/
def isUnreserved (b : UInt8) : Bool :=
  (0x30 ≤ b && b ≤ 0x39) || (0x41 ≤ b && b ≤ 0x5A) || (0x61 ≤ b && b ≤ 0x7A) ||
    b == 0x2D || b == 0x2E || b == 0x5F || b == 0x7E

/-- `t` as one component of a larger text: only unreserved characters are kept. -/
def component (t : Text) : Text :=
  encode isUnreserved t

end EmbeddedMarkup.Percent
