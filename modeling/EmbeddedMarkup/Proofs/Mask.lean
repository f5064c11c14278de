/-
Masked texts. `blank` keeps the length of every part, so what `mask` gives is as long as the text, and
what stands at one of its regions stands there still, provided the regions are apart and in order.
-/
import EmbeddedMarkup.Mask
import EmbeddedMarkup.Proofs.Text.Cuts
import Mathlib.Data.List.Basic

namespace EmbeddedMarkup

/-- Whether `m` is what stands at the region in a part of a text that begins at byte offset `pos`. -/
def Region.Holds (r : Region) (pos : Nat) (part m : Text) : Prop :=
  ∃ a b, part = a ++ m ++ b ∧ r.start = pos + Text.byteLength a ∧ r.stop = pos + Text.byteLength (a ++ m)

/-- What a text `Holds` at a region is what `slice?` gives there. -/
theorem Region.holds_iff {r : Region} {t m : Text} : r.Holds 0 t m ↔ Text.slice? t r.start r.stop = some m := by
  constructor
  · rintro ⟨a, b, rfl, hstart, hstop⟩
    rw [hstart, hstop, Nat.zero_add, Nat.zero_add, Text.slice?_append]
  · intro h
    obtain ⟨a, b, rfl, hstart, hstop⟩ := Text.slice?_eq_some h
    exact ⟨a, b, rfl, by rw [hstart, Nat.zero_add], by rw [hstop, Nat.zero_add]⟩

namespace Mask

theorem byteLength_spaces (n : Nat) : Text.byteLength (List.replicate n ' ') = n := by
  induction n with
  | zero => rfl
  | succ n ih =>
    have hspace : (' ').utf8Size = 1 := by decide
    rw [List.replicate_succ, Text.byteLength_cons, ih, hspace, Nat.add_comm]

@[simp] theorem byteLength_blank (t : Text) : Text.byteLength (blank t) = Text.byteLength t := by
  induction t with
  | nil => rfl
  | cons c t ih =>
    rw [blank, Text.byteLength_append, ih, Text.byteLength_cons]
    split
    · rename_i hc
      rw [hc]
      rfl
    · rw [byteLength_spaces]

/-! ## One region -/

/-- A region cut off at `length`. -/
def clamp (length : Nat) (r : Region) : Region :=
  ⟨r.start, min r.stop length⟩

/-- The first region is left as it is, if it begins and ends between two parts of the text when it is cut
off at the end. -/
theorem maskFrom_of_parts {length pos : Nat} {gap inside tail : Text} {r : Region} (regions : List Region)
    (hstart : (clamp length r).start = pos + Text.byteLength gap)
    (hstop : (clamp length r).stop = pos + Text.byteLength (gap ++ inside)) :
    maskFrom length pos (gap ++ inside ++ tail) (r :: regions) =
      blank gap ++ inside ++ maskFrom length (clamp length r).stop tail regions := by
  rw [Text.byteLength_append] at hstop
  simp only [clamp] at hstart hstop
  have hgap : r.start - pos = Text.byteLength gap := by omega
  have hinside : min r.stop length - r.start = Text.byteLength inside := by omega
  have hle : pos ≤ r.start ∧ r.start ≤ min r.stop length := by omega
  rw [maskFrom]
  simp only [hgap, hinside, if_pos hle, List.append_assoc, Text.splitAt?_append]
  rfl

/-- The first region is left as it is, if it lies in the text. -/
theorem maskFrom_cons {length pos : Nat} {a m b : Text} {r : Region} (regions : List Region)
    (hlength : length = pos + Text.byteLength (a ++ m ++ b)) (hstart : r.start = pos + Text.byteLength a)
    (hstop : r.stop = pos + Text.byteLength (a ++ m)) :
    maskFrom length pos (a ++ m ++ b) (r :: regions) = blank a ++ m ++ maskFrom length r.stop b regions := by
  have hclamp : (clamp length r).stop = r.stop := by
    simp only [Text.byteLength_append] at hlength hstop
    exact Nat.min_eq_left (by omega)
  rw [maskFrom_of_parts regions hstart (hclamp.trans hstop), hclamp]

/-- `maskFrom` skips a region whose span is no part of the rest of the text. -/
theorem maskFrom_of_not_holds {length pos : Nat} {rest : Text} {r : Region} (regions : List Region)
    (h : ¬ ∃ m, (clamp length r).Holds pos rest m) :
    maskFrom length pos rest (r :: regions) = maskFrom length pos rest regions := by
  rw [maskFrom]
  split
  · rename_i hle
    split
    · rfl
    · rename_i gap tail hgap
      split
      · rfl
      · rename_i inside tail' hinside
        obtain ⟨rfl, hstart⟩ := Text.splitAt?_eq_some hgap
        obtain ⟨rfl, hstop⟩ := Text.splitAt?_eq_some hinside
        refine absurd ⟨inside, gap, tail', by simp, ?_, ?_⟩ h
        · show r.start = _
          omega
        · show min r.stop length = _
          rw [Text.byteLength_append]
          omega
  · rfl

/-! ## All regions -/

/-- `maskFrom` keeps the length, whatever the regions are. -/
theorem byteLength_maskFrom (length pos : Nat) (rest : Text) (regions : List Region) :
    Text.byteLength (maskFrom length pos rest regions) = Text.byteLength rest := by
  induction regions generalizing pos rest with
  | nil => exact byteLength_blank rest
  | cons r regions ih =>
    by_cases h : ∃ m, (clamp length r).Holds pos rest m
    · obtain ⟨inside, gap, tail, rfl, hstart, hstop⟩ := h
      rw [maskFrom_of_parts regions hstart hstop]
      simp only [Text.byteLength_append, byteLength_blank, ih]
    · rw [maskFrom_of_not_holds regions h, ih]

/-- What a text `Holds` at a region stands there when the text is masked. -/
theorem holds_maskFrom {length pos : Nat} {rest : Text} {regions : List Region}
    (hlength : length = pos + Text.byteLength rest)
    (hapart : regions.Pairwise fun r r' => r.stop ≤ r'.start) (hin : ∀ r ∈ regions, ∃ m, r.Holds pos rest m)
    {r : Region} (hr : r ∈ regions) {m : Text} (hm : r.Holds pos rest m) :
    r.Holds pos (maskFrom length pos rest regions) m := by
  induction regions generalizing pos rest with
  | nil => cases hr
  | cons r₀ regions ih =>
    rw [List.pairwise_cons] at hapart
    obtain ⟨m₀, a₀, b₀, rfl, hstart₀, hstop₀⟩ := hin r₀ (List.mem_cons_self ..)
    rw [maskFrom_cons regions hlength hstart₀ hstop₀]
    -- a region further on lies behind the first one
    have hbehind : ∀ r' ∈ regions, ∀ m', r'.Holds pos (a₀ ++ m₀ ++ b₀) m' → r'.Holds r₀.stop b₀ m' := by
      rintro r' hr' m' ⟨a, b, ht, hstart, hstop⟩
      have hle : Text.byteLength (a₀ ++ m₀) ≤ Text.byteLength a := by
        have := hapart.1 r' hr'
        omega
      rw [List.append_assoc a] at ht
      obtain ⟨x, rfl, hb₀⟩ := Text.exists_middle Text.byteLength_append Text.byteLength_cons_pos ht hle
      refine ⟨x, b, by rw [hb₀, List.append_assoc], ?_, ?_⟩
      · rw [hstart, hstop₀]
        simp only [Text.byteLength_append]
        omega
      · rw [hstop, hstop₀]
        simp only [Text.byteLength_append]
        omega
    rcases List.mem_cons.1 hr with rfl | hr
    · obtain ⟨a, b, ht, hstart, hstop⟩ := hm
      have hsame : m = m₀ := by
        rw [List.append_assoc, List.append_assoc] at ht
        obtain ⟨rfl, hrest⟩ := Text.cut_unique ht (by omega)
        rw [Text.byteLength_append] at hstop hstop₀
        exact (Text.cut_unique hrest (by omega)).1.symm
      subst hsame
      exact ⟨blank a₀, maskFrom length r.stop b₀ regions, rfl, by rw [byteLength_blank, hstart₀],
        by rw [Text.byteLength_append, byteLength_blank, ← Text.byteLength_append, hstop₀]⟩
    · have hlength' : length = r₀.stop + Text.byteLength b₀ := by
        simp only [Text.byteLength_append] at hlength hstop₀
        omega
      have hin' : ∀ r' ∈ regions, ∃ m', r'.Holds r₀.stop b₀ m' := by
        intro r' hr'
        obtain ⟨m', hm'⟩ := hin r' (List.mem_cons_of_mem _ hr')
        exact ⟨m', hbehind r' hr' m' hm'⟩
      obtain ⟨x, y, hmask, hstart, hstop⟩ := ih hlength' hapart.2 hin' hr (hbehind r hr m hm)
      refine ⟨blank a₀ ++ m₀ ++ x, y, by rw [hmask]; simp, ?_, ?_⟩
      · rw [hstart, hstop₀]
        simp only [Text.byteLength_append, byteLength_blank]
        omega
      · rw [hstop, hstop₀]
        simp only [Text.byteLength_append, byteLength_blank]
        omega

/-! ## Whole texts -/

theorem byteLength_mask (t : Text) (regions : List Region) : Text.byteLength (mask t regions) = Text.byteLength t :=
  byteLength_maskFrom ..

theorem slice?_mask {t : Text} {regions : List Region} (hapart : regions.Pairwise fun r r' => r.stop ≤ r'.start)
    (hin : ∀ r ∈ regions, ∃ m, Text.slice? t r.start r.stop = some m) {r : Region} (hr : r ∈ regions) :
    Text.slice? (mask t regions) r.start r.stop = Text.slice? t r.start r.stop := by
  obtain ⟨m, hm⟩ := hin r hr
  rw [hm, ← Region.holds_iff]
  refine holds_maskFrom (Nat.zero_add _).symm hapart (fun r' hr' => ?_) hr (Region.holds_iff.2 hm)
  obtain ⟨m', hm'⟩ := hin r' hr'
  exact ⟨m', Region.holds_iff.2 hm'⟩

end Mask

end EmbeddedMarkup
