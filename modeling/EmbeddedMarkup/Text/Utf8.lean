/-
UTF-8: the bytes of a text, and the text of bytes that are well formed.
-/
import EmbeddedMarkup.Text.Basic

namespace EmbeddedMarkup.Utf8

/-- The bytes of a text. -/
def encode (t : Text) : List UInt8 :=
  t.flatMap String.utf8EncodeChar

/-- The six low bits of a continuation byte. -/
def continuation? (b : UInt8) : Option Nat :=
  if 0x80 ≤ b ∧ b < 0xC0 then some (b.toNat - 0x80) else none

/-- The character with code point `n`, which must be a scalar value that does not fit into a shorter
sequence. -/
def scalar? (least n : Nat) : Option Char :=
  if least ≤ n ∧ n.isValidChar then some (Char.ofNat n) else none

/-- The character of a sequence of two bytes. -/
def two? (a b : UInt8) : Option Char := do
  if 0xC0 ≤ a then scalar? 0x80 ((a.toNat - 0xC0) * 0x40 + (← continuation? b)) else none

/-- The character of a sequence of three bytes. -/
def three? (a b c : UInt8) : Option Char := do
  scalar? 0x800 (((a.toNat - 0xE0) * 0x40 + (← continuation? b)) * 0x40 + (← continuation? c))

/-- The character of a sequence of four bytes. -/
def four? (a b c d : UInt8) : Option Char := do
  let upper := ((a.toNat - 0xF0) * 0x40 + (← continuation? b)) * 0x40 + (← continuation? c)
  scalar? 0x10000 (upper * 0x40 + (← continuation? d))

/-- The text whose bytes these are. Overlong forms, surrogates and stray bytes are refused. -/
def decode? : List UInt8 → Option Text
  | [] => some []
  | a :: rest =>
    if a < 0x80 then
      (decode? rest).map (Char.ofNat a.toNat :: ·)
    else
      match rest with
      | [] => none
      | b :: rest =>
        if a < 0xE0 then
          (two? a b).bind fun x => (decode? rest).map (x :: ·)
        else
          match rest with
          | [] => none
          | c :: rest =>
            if a < 0xF0 then
              (three? a b c).bind fun x => (decode? rest).map (x :: ·)
            else
              match rest with
              | [] => none
              | d :: rest => (four? a b c d).bind fun x => (decode? rest).map (x :: ·)

end EmbeddedMarkup.Utf8
