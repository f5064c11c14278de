/-
Bytes and digits are read back: `Utf8.decode?` of what `Utf8.encode` gives is the text, and `Decimal.read?`
of `Decimal.digits` is the number.
-/
import EmbeddedMarkup.Text.Decimal
import EmbeddedMarkup.Text.Utf8
import Mathlib.Algebra.Group.Nat.Defs
import Mathlib.Tactic.SplitIfs

namespace EmbeddedMarkup

/-! ## Bytes -/

namespace Utf8

theorem toNat_ofNat {n : Nat} (h : n < 0x100) : (UInt8.ofNat n).toNat = n := by
  rw [UInt8.toNat_ofNat']; omega

theorem scalar?_toNat {least : Nat} {c : Char} (h : least ≤ c.toNat) : scalar? least c.toNat = some c := by
  unfold scalar?
  rw [if_pos ⟨h, c.valid⟩, Char.ofNat_toNat]

theorem continuation?_ofNat {n : Nat} (h : n < 0x40) : continuation? (UInt8.ofNat (n + 0x80)) = some n := by
  have hn : (UInt8.ofNat (n + 0x80)).toNat = n + 0x80 := toNat_ofNat (by omega)
  unfold continuation?
  rw [if_pos, hn, Nat.add_sub_cancel]
  simp only [UInt8.le_iff_toNat_le, UInt8.lt_iff_toNat_lt, hn, UInt8.reduceToNat]
  omega

theorem decode?_one {a : UInt8} (ha : a.toNat < 0x80) (rest : List UInt8) :
    decode? (a :: rest) = (decode? rest).map (Char.ofNat a.toNat :: ·) := by
  have h1 : a < 0x80 := by simpa only [UInt8.lt_iff_toNat_lt, UInt8.reduceToNat] using ha
  rw [decode?.eq_def]
  simp only [h1, if_true]

theorem decode?_two {a : UInt8} (ha : 0x80 ≤ a.toNat) (ha' : a.toNat < 0xE0) (b : UInt8) (rest : List UInt8) :
    decode? (a :: b :: rest) = (two? a b).bind fun x => (decode? rest).map (x :: ·) := by
  have h1 : ¬ a < 0x80 := by simp only [UInt8.lt_iff_toNat_lt, UInt8.reduceToNat]; omega
  have h2 : a < 0xE0 := by simp only [UInt8.lt_iff_toNat_lt, UInt8.reduceToNat]; omega
  rw [decode?.eq_def]
  simp only [h1, h2, if_true, if_false]

theorem decode?_three {a : UInt8} (ha : 0xE0 ≤ a.toNat) (ha' : a.toNat < 0xF0) (b c : UInt8) (rest : List UInt8) :
    decode? (a :: b :: c :: rest) = (three? a b c).bind fun x => (decode? rest).map (x :: ·) := by
  have h1 : ¬ a < 0x80 := by simp only [UInt8.lt_iff_toNat_lt, UInt8.reduceToNat]; omega
  have h2 : ¬ a < 0xE0 := by simp only [UInt8.lt_iff_toNat_lt, UInt8.reduceToNat]; omega
  have h3 : a < 0xF0 := by simp only [UInt8.lt_iff_toNat_lt, UInt8.reduceToNat]; omega
  rw [decode?.eq_def]
  simp only [h1, h2, h3, if_true, if_false]

theorem decode?_four {a : UInt8} (ha : 0xF0 ≤ a.toNat) (b c d : UInt8) (rest : List UInt8) :
    decode? (a :: b :: c :: d :: rest) = (four? a b c d).bind fun x => (decode? rest).map (x :: ·) := by
  have h1 : ¬ a < 0x80 := by simp only [UInt8.lt_iff_toNat_lt, UInt8.reduceToNat]; omega
  have h2 : ¬ a < 0xE0 := by simp only [UInt8.lt_iff_toNat_lt, UInt8.reduceToNat]; omega
  have h3 : ¬ a < 0xF0 := by simp only [UInt8.lt_iff_toNat_lt, UInt8.reduceToNat]; omega
  rw [decode?.eq_def]
  simp only [h1, h2, h3, if_false]

/-- `decode?` reads the sequence of one character as that character, whatever follows. -/
theorem decode?_encodeChar (c : Char) (rest : List UInt8) :
    decode? (String.utf8EncodeChar c ++ rest) = (decode? rest).map (c :: ·) := by
  have hc : c.val.toNat = c.toNat := rfl
  have hmax : c.toNat < 0x110000 := by
    rcases c.valid with h | h
    · exact Nat.lt_trans h (by decide)
    · exact h.2
  -- the lead byte tells the length; from it and the others the code point is put together again
  unfold String.utf8EncodeChar
  simp only [hc]
  split_ifs with h1 h2 h3 <;> simp only [List.cons_append, List.nil_append]
  · have hlead : (UInt8.ofNat c.toNat).toNat = c.toNat := toNat_ofNat (by omega)
    rw [decode?_one (by omega), hlead, Char.ofNat_toNat]
  · have hlead := toNat_ofNat (show c.toNat / 64 % 32 + 192 < 0x100 by omega)
    have hsum : (c.toNat / 64 % 32 + 192 - 0xC0) * 0x40 + c.toNat % 64 = c.toNat := by omega
    have htwo : two? (UInt8.ofNat (c.toNat / 64 % 32 + 192)) (UInt8.ofNat (c.toNat % 64 + 128)) = some c := by
      unfold two?
      rw [continuation?_ofNat (by omega), hlead, if_pos]
      · simp only [Option.bind_eq_bind, Option.bind_some, hsum]
        exact scalar?_toNat (by omega)
      · simp only [UInt8.le_iff_toNat_le, hlead, UInt8.reduceToNat]
        omega
    rw [decode?_two (by omega) (by omega), htwo, Option.bind_some]
  · have hlead := toNat_ofNat (show c.toNat / 4096 % 16 + 224 < 0x100 by omega)
    have hsum : ((c.toNat / 4096 % 16 + 224 - 0xE0) * 0x40 + c.toNat / 64 % 64) * 0x40 + c.toNat % 64 = c.toNat := by
      omega
    have hthree : three? (UInt8.ofNat (c.toNat / 4096 % 16 + 224)) (UInt8.ofNat (c.toNat / 64 % 64 + 128))
        (UInt8.ofNat (c.toNat % 64 + 128)) = some c := by
      unfold three?
      rw [continuation?_ofNat (by omega), continuation?_ofNat (by omega), hlead]
      simp only [Option.bind_eq_bind, Option.bind_some, hsum]
      exact scalar?_toNat (by omega)
    rw [decode?_three (by omega) (by omega), hthree, Option.bind_some]
  · have hlead := toNat_ofNat (show c.toNat / 262144 % 8 + 240 < 0x100 by omega)
    have hsum : (((c.toNat / 262144 % 8 + 240 - 0xF0) * 0x40 + c.toNat / 4096 % 64) * 0x40 +
        c.toNat / 64 % 64) * 0x40 + c.toNat % 64 = c.toNat := by omega
    have hfour : four? (UInt8.ofNat (c.toNat / 262144 % 8 + 240)) (UInt8.ofNat (c.toNat / 4096 % 64 + 128))
        (UInt8.ofNat (c.toNat / 64 % 64 + 128)) (UInt8.ofNat (c.toNat % 64 + 128)) = some c := by
      unfold four?
      rw [continuation?_ofNat (by omega), continuation?_ofNat (by omega), continuation?_ofNat (by omega), hlead]
      simp only [Option.bind_eq_bind, Option.bind_some, hsum]
      exact scalar?_toNat (by omega)
    rw [decode?_four (by omega), hfour, Option.bind_some]

theorem encode_cons (c : Char) (t : Text) : encode (c :: t) = String.utf8EncodeChar c ++ encode t := rfl

/-- `decode?` reads the bytes of a text as that text. -/
theorem decode?_encode (t : Text) : decode? (encode t) = some t := by
  induction t with
  | nil => rfl
  | cons c t ih =>
    rw [encode_cons, decode?_encodeChar, ih, Option.map_some]

theorem encode_append (a b : Text) : encode (a ++ b) = encode a ++ encode b :=
  List.flatMap_append

theorem length_encode (t : Text) : (encode t).length = Text.byteLength t := by
  induction t with
  | nil => rfl
  | cons c t ih =>
    rw [encode_cons, List.length_append, String.length_utf8EncodeChar, ih]
    rfl

/-- A byte below 0x80 stands for the character with that code point, and in no other character. -/
theorem toNat_of_mem_encodeChar {c : Char} {b : UInt8} (hb : b.toNat < 0x80) (h : b ∈ String.utf8EncodeChar c) :
    c.toNat = b.toNat := by
  have hc : c.val.toNat = c.toNat := rfl
  have hbyte : ∀ n : Nat, n < 0x100 → b = UInt8.ofNat n → n = b.toNat := fun n hn he => by
    rw [he, toNat_ofNat hn]
  unfold String.utf8EncodeChar at h
  simp only [hc] at h
  split_ifs at h with h1 h2 h3
  · exact hbyte c.toNat (by omega) (List.mem_singleton.1 h)
  -- every byte of a longer sequence has its first bit set
  · simp only [List.mem_cons, List.not_mem_nil, or_false] at h
    rcases h with h | h <;> have := hbyte _ (by omega) h <;> omega
  · simp only [List.mem_cons, List.not_mem_nil, or_false] at h
    rcases h with h | h | h <;> have := hbyte _ (by omega) h <;> omega
  · simp only [List.mem_cons, List.not_mem_nil, or_false] at h
    rcases h with h | h | h | h <;> have := hbyte _ (by omega) h <;> omega

/-- The byte of a line feed stands for a line feed, and in no other character. -/
theorem newline_mem_encodeChar {c : Char} (h : 0x0A ∈ String.utf8EncodeChar c) : c = '\n' :=
  Char.toNat_inj.1 (toNat_of_mem_encodeChar (by decide) h)

theorem newline_not_mem_encode {t : Text} (h : '\n' ∉ t) : 0x0A ∉ encode t := by
  intro hmem
  obtain ⟨c, hc, hb⟩ := List.mem_flatMap.1 hmem
  exact h (newline_mem_encodeChar hb ▸ hc)

end Utf8

/-! ## Digits -/

namespace Decimal

theorem value_digits (n : Nat) : value (digits n) = n := by
  have : value (digits n) = Nat.ofDigitChars 10 (digits n) 0 := by
    unfold value Nat.ofDigitChars
    simp only [Nat.mul_comm]
  rw [this]
  exact Nat.ofDigitChars_toDigits (by decide) (by decide)

theorem isDigit_of_mem_digits {n : Nat} {c : Char} (h : c ∈ digits n) : c.isDigit = true :=
  Nat.isDigit_of_mem_toDigits (by decide) (by decide) h

/-- `read?` reads the digits of a number as that number, if it fits. -/
theorem read?_digits {bits n : Nat} (h : n < 2 ^ bits) : read? bits (digits n) = some n := by
  have hne : (digits n).isEmpty = false := List.isEmpty_eq_false_iff.2 Nat.toDigits_ne_nil
  have hall : (digits n).all Char.isDigit = true := List.all_eq_true.2 fun c hc => isDigit_of_mem_digits hc
  unfold read?
  extract_lets ds
  -- no digit is a plus sign
  have hds : ds = digits n := by
    simp only [ds]
    split
    · rename_i rest hrest
      have := isDigit_of_mem_digits (n := n) (c := '+') (by rw [hrest]; exact List.mem_cons_self ..)
      simp at this
    · rfl
  rw [hds, value_digits, if_pos]
  simpa [hne, hall] using h

theorem lt_of_read? {bits n : Nat} {t : Text} (h : read? bits t = some n) : n < 2 ^ bits := by
  unfold read? at h
  extract_lets ds at h
  rw [Option.ite_none_right_eq_some] at h
  obtain ⟨hc, hn⟩ := h
  cases hn
  rw [Bool.and_eq_true, decide_eq_true_eq] at hc
  exact hc.2

end Decimal

end EmbeddedMarkup
