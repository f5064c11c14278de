/-
Trimming by `trim`: where a text has a character that is not blank, what stands in front of it is trimmed at its
start and what stands behind it at its end. So blanks at the end do not matter to a trimmed text, and a
part of a trimmed text, trimmed again, is that part of the whole text, trimmed. A trimmed text ends in no
blank, and two texts that do not end in one are told apart by the trimmed texts that they end.
-/
import EmbeddedMarkup.Text.Blank
import Mathlib.Data.List.DropRight

namespace EmbeddedMarkup.Text

theorem trimEnd_append_of_blank (t : Text) {s : Text} (h : ∀ c ∈ s, isBlank c = true) :
    trimEnd (t ++ s) = trimEnd t := by
  unfold trimEnd
  rw [List.reverse_append, List.dropWhile_append_of_pos]
  intro c hc
  exact h c (List.mem_reverse.1 hc)

theorem trimStart_cut (a b : Text) {c : Char} (hc : isBlank c = false) :
    trimStart (a ++ c :: b) = trimStart a ++ c :: b := by
  unfold trimStart
  rw [List.dropWhile_append]
  split
  · rename_i h
    rw [List.isEmpty_iff.1 h, List.dropWhile_cons_of_neg (by simp [hc]), List.nil_append]
  · rfl

theorem trimEnd_cut (a b : Text) {c : Char} (hc : isBlank c = false) :
    trimEnd (a ++ c :: b) = a ++ c :: trimEnd b := by
  have h := trimStart_cut b.reverse a.reverse hc
  unfold trimStart at h
  unfold trimEnd
  rw [List.reverse_append, List.reverse_cons, List.append_assoc, List.singleton_append, h]
  simp

/-- `trim` around a character that is not blank. -/
theorem trim_cut (a b : Text) {c : Char} (hc : isBlank c = false) :
    trim (a ++ c :: b) = trimStart a ++ c :: trimEnd b := by
  unfold trim
  rw [trimStart_cut a b hc, trimEnd_cut _ b hc]

theorem mem_of_mem_trim {t : Text} {c : Char} (h : c ∈ trim t) : c ∈ t :=
  (List.dropWhile_suffix isBlank).subset ((List.rdropWhile_prefix isBlank _).subset h)

theorem trim_of_blank {t : Text} (h : ∀ c ∈ t, isBlank c = true) : trim t = [] := by
  unfold trim trimStart
  rw [List.dropWhile_eq_nil_iff.2 h]; rfl

/-- Whether the last character of a text is blank. -/
def EndsBlank (t : Text) : Prop :=
  ∃ c, t.getLast? = some c ∧ isBlank c = true

theorem EndsBlank.of_suffix {x t : Text} (h : EndsBlank x) (hs : x <:+ t) : EndsBlank t := by
  obtain ⟨c, hc, hb⟩ := h
  obtain ⟨a, rfl⟩ := hs
  exact ⟨c, by rw [List.getLast?_append, hc, Option.some_or], hb⟩

theorem not_endsBlank_trim (t : Text) : ¬ EndsBlank (trim t) := by
  rintro ⟨c, hc, hb⟩
  have hne : (trimStart t).rdropWhile isBlank ≠ [] := fun h => by
    rw [show trim t = [] from h] at hc
    cases hc
  have hlast := List.rdropWhile_last_not isBlank (trimStart t) hne
  rw [show trim t = (trimStart t).rdropWhile isBlank from rfl, List.getLast?_eq_some_getLast hne,
    Option.some.injEq] at hc
  exact hlast (hc ▸ hb)

theorem trimEnd_eq_self {t : Text} (h : ¬ EndsBlank t) : trimEnd t = t := by
  rcases List.eq_nil_or_concat t with rfl | ⟨a, c, rfl⟩
  · rfl
  · have hc : isBlank c = false := by
      rw [Bool.eq_false_iff]
      exact fun hc => h ⟨c, by simp, hc⟩
    rw [List.concat_eq_append, trimEnd_cut a [] hc]
    rfl

theorem trim_cons {c : Char} (hc : isBlank c = false) {t : Text} (h : ¬ EndsBlank t) : trim (c :: t) = c :: t := by
  have := trim_cut [] t hc
  rwa [trimEnd_eq_self h] at this

theorem trim_eq_self {t : Text} (h : ∀ c ∈ t, isBlank c = false) : trim t = t := by
  cases t with
  | nil => rfl
  | cons c t =>
    refine trim_cons (h c (List.mem_cons_self ..)) ?_
    rintro ⟨c', hlast, hblank⟩
    rw [h c' (List.mem_cons_of_mem c (List.mem_of_getLast? hlast))] at hblank
    cases hblank

theorem trim_append_of_blank (t : Text) {s : Text} (h : ∀ c ∈ s, isBlank c = true) : trim (t ++ s) = trim t := by
  by_cases ht : ∃ c ∈ t, isBlank c = false
  · obtain ⟨c, hmem, hc⟩ := ht
    obtain ⟨a, b, rfl⟩ := List.append_of_mem hmem
    rw [List.append_assoc, List.cons_append, trim_cut a _ hc, trim_cut a b hc, trimEnd_append_of_blank b h]
  · have ht : ∀ c ∈ t, isBlank c = true := fun c hc => by
      by_contra hb
      exact ht ⟨c, hc, by simpa using hb⟩
    rw [trim_of_blank ht, trim_of_blank]
    intro c hc
    rcases List.mem_append.1 hc with hc | hc
    · exact ht c hc
    · exact h c hc

theorem trim_trimStart (t : Text) : trim (trimStart t) = trim t := by
  unfold trim trimStart
  rw [List.dropWhile_idempotent]

theorem trim_trimEnd (t : Text) : trim (trimEnd t) = trim t := by
  have ht : trimEnd t ++ t.rtakeWhile isBlank = t := List.rdropWhile_append_rtakeWhile
  calc trim (trimEnd t) = trim (trimEnd t ++ t.rtakeWhile isBlank) :=
        (trim_append_of_blank _ fun c hc => List.mem_rtakeWhile_imp hc).symm
    _ = trim t := by rw [ht]

/-! ## Ends of trimmed texts -/

/-- What ends every trimmed text that `x` ends, ends `x`. -/
theorem suffix_of_trim {x y : Text} (hx : ¬ EndsBlank x) (h : ∀ t, x <:+ trim t → y <:+ trim t) : y <:+ x := by
  have hcons : ∀ c, isBlank c = false → y <:+ c :: x := by
    intro c hc
    have := h (c :: x)
    rw [trim_cons hc hx] at this
    exact this (List.suffix_cons c x)
  -- `y` cannot begin with both of two characters, so it begins behind them
  rcases List.suffix_cons_iff.1 (hcons 'a' (by decide)) with hy | hy
  · rcases List.suffix_cons_iff.1 (hcons 'b' (by decide)) with hy' | hy'
    · rw [hy] at hy'
      cases hy'
    · exact hy'
  · exact hy

/-- Two texts end the same trimmed texts just when they are equal, or both `EndsBlank`. -/
theorem suffix_trim_iff {x y : Text} :
    (∀ t, x <:+ trim t ↔ y <:+ trim t) ↔ x = y ∨ (EndsBlank x ∧ EndsBlank y) := by
  constructor
  · intro h
    by_cases hx : EndsBlank x
    · by_cases hy : EndsBlank y
      · exact .inr ⟨hx, hy⟩
      · exact absurd (hx.of_suffix (suffix_of_trim hy fun t => (h t).2)) hy
    · have hyx := suffix_of_trim hx fun t => (h t).1
      have hxy := suffix_of_trim (fun hy => hx (hy.of_suffix hyx)) fun t => (h t).2
      exact .inl (hxy.eq_of_length_le hyx.length_le)
  · rintro (rfl | ⟨hx, hy⟩) t
    · exact Iff.rfl
    · exact iff_of_false (fun h => not_endsBlank_trim t (hx.of_suffix h)) fun h =>
        not_endsBlank_trim t (hy.of_suffix h)

end EmbeddedMarkup.Text
