/-
Cuts of a text: an offset is a character boundary exactly when it is the byte length of a part in
front. What `slice?` and `replace?` do is then said in terms of the parts.
-/
import EmbeddedMarkup.Text.Basic

namespace EmbeddedMarkup.Text

@[simp] theorem byteLength_nil : byteLength [] = 0 := rfl

@[simp] theorem byteLength_cons (c : Char) (t : Text) : byteLength (c :: t) = c.utf8Size + byteLength t := rfl

/-- `splitAt?` cuts where the part in front is as long as the offset says. -/
theorem splitAt?_eq_some_iff {t : Text} {o : Nat} {a b : Text} :
    splitAt? t o = some (a, b) ↔ t = a ++ b ∧ byteLength a = o := by
  constructor
  · exact splitAt?_eq_some
  · rintro ⟨rfl, rfl⟩
    exact splitAt?_append a b

/-- `isBoundary` holds of the lengths of the parts in front. -/
theorem isBoundary_iff {t : Text} {o : Nat} : isBoundary t o = true ↔ ∃ a b, t = a ++ b ∧ byteLength a = o := by
  unfold isBoundary
  rw [Option.isSome_iff_exists]
  constructor
  · rintro ⟨⟨a, b⟩, h⟩
    exact ⟨a, b, splitAt?_eq_some h⟩
  · rintro ⟨a, b, h⟩
    exact ⟨(a, b), splitAt?_eq_some_iff.2 h⟩

theorem isBoundary_eq_false_iff {t : Text} {o : Nat} :
    isBoundary t o = false ↔ ∀ a b, t = a ++ b → byteLength a ≠ o := by
  rw [← Bool.not_eq_true, isBoundary_iff]
  exact ⟨fun h a b ht ha => h ⟨a, b, ht, ha⟩, fun h ⟨a, b, ht, ha⟩ => h a b ht ha⟩

/-- An offset in a text that is no boundary is inside a character. -/
theorem exists_char_around {t : Text} {o : Nat} (hle : o ≤ byteLength t) (ho : isBoundary t o = false) :
    ∃ a c b, t = a ++ c :: b ∧ byteLength a < o ∧ o < byteLength a + c.utf8Size := by
  induction t generalizing o with
  | nil => exact absurd (Nat.le_zero.1 hle).symm (isBoundary_eq_false_iff.1 ho [] [] rfl)
  | cons c t ih =>
    rw [isBoundary_eq_false_iff] at ho
    have hstart : 0 ≠ o := ho [] (c :: t) rfl
    by_cases hlt : o < c.utf8Size
    · exact ⟨[], c, t, rfl, Nat.pos_of_ne_zero hstart.symm, by rwa [byteLength_nil, Nat.zero_add]⟩
    · -- behind `c` the offset is one of the rest, and no boundary there either
      have hrest : isBoundary t (o - c.utf8Size) = false := by
        refine isBoundary_eq_false_iff.2 fun a b ht ha => ho (c :: a) b (by rw [ht]; rfl) ?_
        rw [byteLength_cons]; omega
      rw [byteLength_cons] at hle
      obtain ⟨a, d, b, rfl, hfront, hback⟩ := ih (by omega) hrest
      refine ⟨c :: a, d, b, rfl, ?_, ?_⟩
      · rw [byteLength_cons]; omega
      · rw [byteLength_cons]; omega

/-- Of two cuts of a text the one with less in front comes first, whatever the unit of length. -/
theorem exists_middle {length : Text → Nat} (happend : ∀ a b, length (a ++ b) = length a + length b)
    (hpos : ∀ c t, 0 < length (c :: t)) {a b a' b' : Text} (h : a ++ b = a' ++ b') (hle : length a ≤ length a') :
    ∃ m, a' = a ++ m ∧ b = m ++ b' := by
  rcases List.append_eq_append_iff.1 h with ⟨m, ha, hb⟩ | ⟨m, ha, hb⟩
  · exact ⟨m, ha, hb⟩
  · -- The first part is the longer one, but by nothing.
    have hm : m = [] := by
      cases m with
      | nil => rfl
      | cons c m =>
        have := hpos c m
        rw [ha, happend] at hle
        omega
    subst hm
    exact ⟨[], by simpa using ha.symm, by simpa using hb.symm⟩

theorem byteLength_cons_pos (c : Char) (t : Text) : 0 < byteLength (c :: t) :=
  Nat.lt_of_lt_of_le c.utf8Size_pos (Nat.le_add_right _ _)

/-- Cuts at the same offset are the same. -/
theorem cut_unique {a b a' b' : Text} (h : a ++ b = a' ++ b') (hlen : byteLength a = byteLength a') :
    a = a' ∧ b = b' := by
  obtain ⟨m, rfl, rfl⟩ := exists_middle byteLength_append byteLength_cons_pos h (Nat.le_of_eq hlen)
  cases m with
  | nil => simp
  | cons c m =>
    have := byteLength_cons_pos c m
    rw [byteLength_append] at hlen
    omega

/-- `slice?` gives the part between two cuts. -/
theorem slice?_eq_some {t m : Text} {s e : Nat} (h : slice? t s e = some m) :
    ∃ a b, t = a ++ m ++ b ∧ s = byteLength a ∧ e = byteLength (a ++ m) := by
  unfold slice? at h
  split at h
  · rename_i hle
    obtain ⟨⟨a, tail⟩, ha, h⟩ := Option.bind_eq_some_iff.1 h
    obtain ⟨⟨m', b⟩, hm, h⟩ := Option.bind_eq_some_iff.1 h
    cases h
    obtain ⟨rfl, rfl⟩ := splitAt?_eq_some ha
    obtain ⟨rfl, hlen⟩ := splitAt?_eq_some hm
    exact ⟨a, b, by simp, rfl, by rw [byteLength_append]; omega⟩
  · cases h

theorem slice?_append (a m b : Text) : slice? (a ++ m ++ b) (byteLength a) (byteLength (a ++ m)) = some m := by
  unfold slice?
  rw [byteLength_append, if_pos (Nat.le_add_right _ _), List.append_assoc, splitAt?_append]
  simp only [Option.bind_eq_bind, Option.bind_some, Nat.add_sub_cancel_left]
  rw [splitAt?_append]; rfl

/-- `replace?` puts something in the place of what is between two cuts. -/
theorem replace?_append (a m b new : Text) :
    replace? (a ++ m ++ b) (byteLength a) (byteLength a + byteLength m) new = some (a ++ new ++ b) := by
  unfold replace?
  rw [if_pos (Nat.le_add_right _ _), List.append_assoc, splitAt?_append]
  simp only [Option.bind_eq_bind, Option.bind_some, Nat.add_sub_cancel_left]
  rw [splitAt?_append]; rfl

end EmbeddedMarkup.Text
