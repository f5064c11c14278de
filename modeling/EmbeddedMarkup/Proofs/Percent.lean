/-
Percent coding as far as characters go: what `encode` keeps stands for itself, a coded `component` holds
nothing but unreserved characters and percent signs, and `decode?` gives the text it was made of.
-/
import EmbeddedMarkup.Percent
import EmbeddedMarkup.Proofs.Text.Codecs
import Mathlib.Tactic.IntervalCases

namespace EmbeddedMarkup.Percent

/-- Characters of ASCII that `encode` keeps. -/
def IsKept (keep : UInt8 → Bool) (c : Char) : Prop :=
  c.toNat < 0x80 ∧ keep (UInt8.ofNat c.toNat) = true

instance (keep : UInt8 → Bool) (c : Char) : Decidable (IsKept keep c) :=
  inferInstanceAs (Decidable (_ ∧ _))

/-- Characters that a `component` may hold. -/
def IsCoded (c : Char) : Prop :=
  c = '%' ∨ IsKept isUnreserved c

instance (c : Char) : Decidable (IsCoded c) :=
  inferInstanceAs (Decidable (_ ∨ _))

/-- What holds of all code points of ASCII holds of all its characters. -/
@[elab_as_elim]
theorem of_ascii {motive : Char → Prop} {c : Char} (hc : c.toNat < 0x80) (h : ∀ n < 0x80, motive (Char.ofNat n)) :
    motive c :=
  Char.ofNat_toNat c ▸ h c.toNat hc

/-! ## What is kept -/

theorem utf8EncodeChar_of_ascii {c : Char} (h : c.toNat < 0x80) :
    String.utf8EncodeChar c = [UInt8.ofNat c.toNat] := by
  have h' : c.val.toNat ≤ 0x7F := by
    have : c.val.toNat = c.toNat := rfl
    omega
  simp only [String.utf8EncodeChar, if_pos h']
  rfl

theorem encode_cons (keep : UInt8 → Bool) (c : Char) (t : Text) :
    encode keep (c :: t) = encode keep [c] ++ encode keep t := by
  simp [encode, Utf8.encode]

/-- A text of characters that are kept is its own coding. -/
theorem encode_eq_self {keep : UInt8 → Bool} {t : Text} (h : ∀ c ∈ t, IsKept keep c) : encode keep t = t := by
  induction t with
  | nil => rfl
  | cons c t ih =>
    obtain ⟨hc, hk⟩ := h c (List.mem_cons_self ..)
    have hb : (UInt8.ofNat c.toNat).toNat = c.toNat := by
      rw [UInt8.toNat_ofNat']; omega
    have h1 : encode keep [c] = [c] := by
      simp [encode, Utf8.encode, utf8EncodeChar_of_ascii hc, hk, hb, Char.ofNat_toNat]
    rw [encode_cons, h1, ih fun c' hc' => h c' (List.mem_cons_of_mem _ hc')]
    rfl

/-! ## What is coded -/

theorem isCoded_hexDigit {n : Nat} (h : n < 16) : IsCoded (hexDigit n) := by
  interval_cases n <;> decide

theorem isCoded_of_mem_triplet {b : UInt8} {c : Char} (h : c ∈ triplet b) : IsCoded c := by
  have hb := b.toNat_lt
  simp only [triplet, List.mem_cons, List.not_mem_nil, or_false] at h
  rcases h with rfl | rfl | rfl
  · exact .inl rfl
  · exact isCoded_hexDigit (by omega)
  · exact isCoded_hexDigit (by omega)

theorem lt_of_isUnreserved {b : UInt8} (h : isUnreserved b = true) : b.toNat < 0x80 ∧ b ≠ 0x25 := by
  simp only [isUnreserved, Bool.or_eq_true, Bool.and_eq_true, decide_eq_true_eq, beq_iff_eq, UInt8.le_iff_toNat_le,
    ← UInt8.toNat_inj, UInt8.reduceToNat, ne_eq] at h ⊢
  omega

theorem toNat_charOfNat {n : Nat} (h : n < 0x80) : (Char.ofNat n).toNat = n :=
  (by decide : ∀ n < 0x80, (Char.ofNat n).toNat = n) n h

theorem isKept_ofNat {b : UInt8} (h : isUnreserved b = true) : IsKept isUnreserved (Char.ofNat b.toNat) := by
  obtain ⟨hb, -⟩ := lt_of_isUnreserved h
  have hc := toNat_charOfNat hb
  exact ⟨by omega, by rw [hc, UInt8.ofNat_toNat]; exact h⟩

/-- A component holds unreserved characters and percent signs only. -/
theorem isCoded_of_mem_component {t : Text} {c : Char} (h : c ∈ component t) : IsCoded c := by
  unfold component encode at h
  obtain ⟨b, -, hc⟩ := List.mem_flatMap.1 h
  split at hc
  · rename_i hb
    rw [List.mem_singleton] at hc
    subst hc
    exact .inr (isKept_ofNat hb)
  · exact isCoded_of_mem_triplet hc

theorem mem_component {t : Text} {c d : Char} (hc : c ∈ t) (hd : d ∈ component [c]) : d ∈ component t := by
  induction t with
  | nil => cases hc
  | cons a t ih =>
    unfold component at *
    rw [encode_cons, List.mem_append]
    rcases List.mem_cons.1 hc with rfl | hc
    · exact .inl hd
    · exact .inr (ih hc)

/-! ## What is resolved -/

theorem resolve_cons_of_ne {b : UInt8} (h : b ≠ 0x25) (rest : List UInt8) :
    resolve (b :: rest) = b :: resolve rest := by
  match rest with
  | [] => rfl
  | [_] => rfl
  | _ :: _ :: _ => rw [resolve, if_neg h]

theorem hexValue?_hexDigit {n : Nat} (h : n < 16) : hexValue? (UInt8.ofNat (hexDigit n).toNat) = some n := by
  interval_cases n <;> decide

theorem encode_triplet (b : UInt8) :
    Utf8.encode (triplet b) =
      [0x25, UInt8.ofNat (hexDigit (b.toNat / 16)).toNat, UInt8.ofNat (hexDigit (b.toNat % 16)).toNat] := by
  have hb := b.toNat_lt
  have hascii : ∀ n < 16, (hexDigit n).toNat < 0x80 := by decide
  have hhigh := utf8EncodeChar_of_ascii (hascii (b.toNat / 16) (by omega))
  have hlow := utf8EncodeChar_of_ascii (hascii (b.toNat % 16) (by omega))
  simp only [Utf8.encode, triplet, List.flatMap_cons, List.flatMap_nil, hhigh, hlow]
  rfl

theorem resolve_triplet (b : UInt8) (rest : List UInt8) :
    resolve (Utf8.encode (triplet b) ++ rest) = b :: resolve rest := by
  have hb := b.toNat_lt
  rw [encode_triplet]
  simp only [List.cons_append, List.nil_append, resolve, if_true, hexValue?_hexDigit (show b.toNat / 16 < 16 by omega),
    hexValue?_hexDigit (show b.toNat % 16 < 16 by omega)]
  rw [Nat.div_add_mod' b.toNat 16, UInt8.ofNat_toNat]

/-- `resolve` takes the `triplet` of each byte back to the byte. -/
theorem resolve_encode_flatMap (bytes : List UInt8) :
    resolve (Utf8.encode (bytes.flatMap fun b => if isUnreserved b then [Char.ofNat b.toNat] else triplet b)) =
      bytes := by
  have happend : ∀ a b : Text, Utf8.encode (a ++ b) = Utf8.encode a ++ Utf8.encode b := fun _ _ => List.flatMap_append
  induction bytes with
  | nil => rfl
  | cons b bytes ih =>
    rw [List.flatMap_cons, happend]
    split
    · rename_i hb
      obtain ⟨hlt, hne⟩ := lt_of_isUnreserved hb
      have hc := toNat_charOfNat hlt
      have h1 : Utf8.encode [Char.ofNat b.toNat] = [b] := by
        simp only [Utf8.encode, List.flatMap_cons, List.flatMap_nil, List.append_nil]
        rw [utf8EncodeChar_of_ascii (by omega), hc, UInt8.ofNat_toNat]
      rw [h1, List.singleton_append, resolve_cons_of_ne hne, ih]
    · rw [resolve_triplet, ih]

/-- `decode?` takes a `component` back to the text that it was made of. -/
theorem decode?_component (t : Text) : decode? (component t) = some t := by
  unfold decode? decodeBytes component encode
  rw [resolve_encode_flatMap, Utf8.decode?_encode]

end EmbeddedMarkup.Percent
