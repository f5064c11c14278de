/-
Positions that are no places of a text. `offset?` looks for the offset of a position among the character
boundaries of its line, `boundariesIn`, which end in front of the line feed: it is the first that the
position does not lie behind, or the last one of the line if the position lies behind all of them. So a
position is moved forward and never to another line; positions in order have offsets in order, and a range
in order covers something wherever both of its lines exist.
-/
import EmbeddedMarkup.Proofs.Text.Order
import Mathlib.Order.Bounds.Basic

namespace EmbeddedMarkup

namespace Text

/-! ## The boundaries of a line -/

/-- The character boundaries in line `n` of a text, from its start to its end in front of the line
feed. -/
def boundariesIn (t : Text) (n : Nat) : Set Nat :=
  {o | ∃ a b, t = a ++ b ∧ newlines a = n ∧ o = byteLength a}

/-- Those of the boundaries in the line of `p` that `p` does not lie behind. -/
def boundariesFrom (t : Text) (p : Position) : Set Nat :=
  {o | o ∈ t.boundariesIn p.line ∧ ∃ q, (LineTable.ofText t).position? o = some q ∧ p ≤ q}

theorem newlines_pos_of_endsLine {a b : Text} (h : EndsLine (a ++ b)) (hb : b ≠ []) : 0 < newlines b := by
  rcases h with h | h
  · exact absurd (List.append_eq_nil_iff.1 h).2 hb
  · rw [List.getLast?_append_of_ne_nil a hb] at h
    exact List.count_pos_iff.2 (List.mem_of_getLast? h)

theorem newlines_pos_of_takeWhile {a b : Text} (h : (a ++ b).takeWhile (· ≠ '\n') = []) (ha : a ≠ []) :
    0 < newlines a := by
  obtain ⟨c, a, rfl⟩ := List.exists_cons_of_ne_nil ha
  have hc : c = '\n' := by
    by_contra hc
    rw [List.cons_append, List.takeWhile_cons_of_pos (by simpa using hc)] at h
    cases h
  rw [newlines_cons, if_pos hc]
  omega

/-- `boundariesIn` holds the boundaries between two parts of a line. -/
theorem mem_boundariesIn_iff {before line rest : Text} (hb : EndsLine before) (hl : '\n' ∉ line)
    (hr : rest.takeWhile (· ≠ '\n') = []) {o : Nat} :
    o ∈ boundariesIn (before ++ line ++ rest) (newlines before) ↔
      ∃ front back, line = front ++ back ∧ o = byteLength (before ++ front) := by
  constructor
  · rintro ⟨a, b, ht, hn, rfl⟩
    rw [List.append_assoc] at ht
    -- a part that ends in front of the line lacks a line feed
    have hle : byteLength before ≤ byteLength a := by
      by_contra hlt
      obtain ⟨m, rfl, -⟩ := exists_middle byteLength_append byteLength_cons_pos ht.symm (Nat.le_of_not_le hlt)
      have hm : m ≠ [] := by
        rintro rfl
        simp at hlt
      have := newlines_pos_of_endsLine hb hm
      rw [newlines_append] at hn
      omega
    obtain ⟨front, rfl, hfront⟩ := exists_middle byteLength_append byteLength_cons_pos ht hle
    -- and one that ends behind the line has one too many
    have hle' : byteLength front ≤ byteLength line := by
      by_contra hlt
      obtain ⟨m, rfl, rfl⟩ := exists_middle byteLength_append byteLength_cons_pos hfront (Nat.le_of_not_le hlt)
      have hm : m ≠ [] := by
        rintro rfl
        simp at hlt
      have := newlines_pos_of_takeWhile hr hm
      simp only [newlines_append] at hn
      omega
    obtain ⟨back, rfl, -⟩ := exists_middle byteLength_append byteLength_cons_pos hfront.symm hle'
    exact ⟨front, back, rfl, rfl⟩
  · rintro ⟨front, back, rfl, rfl⟩
    refine ⟨before ++ front, back ++ rest, by simp, ?_, rfl⟩
    rw [newlines_append, newlines_eq_zero fun h => hl (List.mem_append_left back h), Nat.add_zero]

theorem mem_boundariesFrom_iff {before line rest : Text} (hb : EndsLine before) (hl : '\n' ∉ line)
    (hr : rest.takeWhile (· ≠ '\n') = []) {p : Position} (hp : newlines before = p.line) {o : Nat} :
    o ∈ boundariesFrom (before ++ line ++ rest) p ↔
      ∃ front back, line = front ++ back ∧ o = byteLength (before ++ front) ∧ p.character ≤ unitLength front := by
  -- the position of a boundary in the line, in terms of what stands in front of it there
  have hposition {front back : Text} (h : line = front ++ back) :
      (LineTable.ofText (before ++ line ++ rest)).position? (byteLength (before ++ front)) =
        some ⟨p.line, unitLength front⟩ := by
    have hf : '\n' ∉ front := fun hmem => hl (h ▸ List.mem_append_left back hmem)
    have := LineTable.position?_append (before ++ front) (back ++ rest)
    rw [endPosition_append hb hf, hp] at this
    rw [h]
    simpa using this
  unfold boundariesFrom
  rw [Set.mem_ofPred_eq, ← hp, mem_boundariesIn_iff hb hl hr]
  constructor
  · rintro ⟨⟨front, back, hline, rfl⟩, q, hq, hle⟩
    rw [hposition hline, Option.some.injEq] at hq
    subst hq
    refine ⟨front, back, hline, rfl, ?_⟩
    rw [Position.le_iff] at hle
    simpa using hle
  · rintro ⟨front, back, hline, rfl, hle⟩
    exact ⟨⟨front, back, hline, rfl⟩, _, hposition hline, Position.le_iff.2 (.inr ⟨rfl, hle⟩)⟩

/-- The boundaries of a line are in front of those of a later line. -/
theorem lt_of_boundariesIn {t : Text} {m n o o' : Nat} (ho : o ∈ t.boundariesIn m) (ho' : o' ∈ t.boundariesIn n)
    (h : m < n) : o < o' := by
  obtain ⟨a, b, ht, rfl, rfl⟩ := ho
  obtain ⟨a', b', ht', rfl, rfl⟩ := ho'
  by_contra hle
  obtain ⟨x, rfl, -⟩ :=
    exists_middle byteLength_append byteLength_cons_pos (ht'.symm.trans ht) (Nat.le_of_not_lt hle)
  rw [newlines_append] at h
  omega

theorem boundariesFrom_subset {t : Text} {p q : Position} (hline : p.line = q.line) (h : p ≤ q) :
    t.boundariesFrom q ⊆ t.boundariesFrom p := by
  rintro o ⟨hin, q', hq', hle⟩
  exact ⟨hline ▸ hin, q', hq', Position.le_trans h hle⟩

/-- Whether a part of a line just reaches a column: it ends there, or with a character that has its
second unit behind the column. -/
def Reaches (a : Text) (units : Nat) : Prop :=
  unitLength a = units ∨ ∃ x c, a = x ++ [c] ∧ charUnits c = 2 ∧ units = unitLength x + 1

theorem Reaches.le {a : Text} {units : Nat} (h : a.Reaches units) : units ≤ unitLength a := by
  rcases h with rfl | ⟨x, c, rfl, hc, rfl⟩
  · exact Nat.le_refl _
  · rw [unitLength_append, unitLength_cons, hc]
    omega

/-- No shorter part `Reaches` it. -/
theorem Reaches.lt_of_shorter {front back : Text} {units : Nat} (h : Reaches (front ++ back) units)
    (hback : back ≠ []) : unitLength front < units := by
  obtain ⟨y, c, rfl⟩ : ∃ y c, back = y ++ [c] := ⟨_, _, (List.dropLast_append_getLast hback).symm⟩
  rcases h with rfl | ⟨x, d, hx, -, rfl⟩
  · have := charUnits_pos c
    simp only [unitLength_append, unitLength_cons, unitLength_nil]
    omega
  · rw [← List.append_assoc] at hx
    rw [← (List.append_inj' hx rfl).1, unitLength_append]
    omega

end Text

namespace LineTable

/-! ## Rounding -/

/-- The offset of a position is the first boundary of its line that the position does not lie behind, or
the last one if it lies behind them all. -/
theorem isLeast_or_isGreatest_of_offset? {t : Text} {p : Position} {o : Nat} (h : (ofText t).offset? p = some o) :
    IsLeast (t.boundariesFrom p) o ∨ (t.boundariesFrom p = ∅ ∧ IsGreatest (t.boundariesIn p.line) o) := by
  obtain ⟨before, a, b, rest, rfl, hb, hline, hab, hrest, rfl, hunits⟩ := exists_line_of_offset? h
  have hshorter {front back : Text} (hfront : a ++ b = front ++ back)
      (hlt : ¬ Text.byteLength (before ++ a) ≤ Text.byteLength (before ++ front)) :
      ∃ m, a = front ++ m ∧ m ≠ [] := by
    simp only [Text.byteLength_append] at hlt
    obtain ⟨m, rfl, -⟩ :=
      Text.exists_middle Text.byteLength_append Text.byteLength_cons_pos hfront.symm (by omega)
    refine ⟨m, rfl, ?_⟩
    rintro rfl
    simp at hlt
  -- either the part of the line in front of the offset reaches the column, or the line ends before it
  have hreach : a.Reaches p.character ∨ (Text.unitLength a < p.character ∧ b = []) := by
    rcases hunits with hexact | hpast | hpair
    · exact .inl (.inl hexact)
    · exact .inr hpast
    · exact .inl (.inr hpair)
  rcases hreach with hreach | ⟨hpast, rfl⟩
  · left
    refine ⟨(Text.mem_boundariesFrom_iff hb hab hrest hline).2 ⟨a, b, rfl, rfl, hreach.le⟩, fun o' ho' => ?_⟩
    obtain ⟨front, back, hfront, rfl, hcolumn⟩ := (Text.mem_boundariesFrom_iff hb hab hrest hline).1 ho'
    by_contra hlt
    obtain ⟨m, rfl, hne⟩ := hshorter hfront hlt
    have := hreach.lt_of_shorter hne
    omega
  · right
    rw [List.append_nil] at hab ⊢
    refine ⟨Set.eq_empty_of_forall_notMem fun o' ho' => ?_, ?_, fun o' ho' => ?_⟩
    · obtain ⟨front, back, rfl, rfl, hcolumn⟩ := (Text.mem_boundariesFrom_iff hb hab hrest hline).1 ho'
      rw [Text.unitLength_append] at hpast
      omega
    · rw [← hline]
      exact (Text.mem_boundariesIn_iff hb hab hrest).2 ⟨a, [], by simp, rfl⟩
    · rw [← hline] at ho'
      obtain ⟨front, back, rfl, rfl⟩ := (Text.mem_boundariesIn_iff hb hab hrest).1 ho'
      simp only [Text.byteLength_append]
      omega

theorem mem_boundariesIn_of_offset? {t : Text} {p : Position} {o : Nat} (h : (ofText t).offset? p = some o) :
    o ∈ t.boundariesIn p.line := by
  rcases isLeast_or_isGreatest_of_offset? h with hleast | ⟨-, hgreatest⟩
  · exact hleast.1.1
  · exact hgreatest.1

/-- `offset?` keeps the order of positions. -/
theorem offset?_le_offset? {t : Text} {p q : Position} {o o' : Nat} (hp : (ofText t).offset? p = some o)
    (hq : (ofText t).offset? q = some o') (h : p ≤ q) : o ≤ o' := by
  rcases Position.le_iff.1 h with hlt | ⟨hline, -⟩
  · exact Nat.le_of_lt
      (Text.lt_of_boundariesIn (mem_boundariesIn_of_offset? hp) (mem_boundariesIn_of_offset? hq) hlt)
  · rcases isLeast_or_isGreatest_of_offset? hq with hleast | ⟨-, hgreatest⟩
    · -- what is not in front of `q` is not in front of `p` either
      have hfrom := Text.boundariesFrom_subset hline h hleast.1
      rcases isLeast_or_isGreatest_of_offset? hp with hleast' | ⟨hempty, -⟩
      · exact hleast'.2 hfrom
      · exact absurd hfrom (hempty ▸ Set.notMem_empty o')
    · exact hgreatest.2 (hline ▸ mem_boundariesIn_of_offset? hp)

theorem span?_eq_some_iff {table : LineTable} {r : Range} {s e : Nat} :
    table.span? r = some (s, e) ↔ table.offset? r.start = some s ∧ table.offset? r.stop = some e ∧ s ≤ e := by
  unfold span?
  constructor
  · intro h
    obtain ⟨s', hs, h⟩ := Option.bind_eq_some_iff.1 h
    obtain ⟨e', he, h⟩ := Option.bind_eq_some_iff.1 h
    split at h
    · rename_i hle
      cases h
      exact ⟨hs, he, hle⟩
    · cases h
  · rintro ⟨hs, he, hle⟩
    rw [hs, he]
    exact if_pos hle

/-- Positions are rounded forward in their line. `offset?` gives none for a position exactly if its line is
not one of those of the text, of which there is one more than line feeds. Otherwise it gives the least
character boundary of the line, `boundariesFrom` the position on, its end in front of the line feed included,
whose position is not in front of it, or the end of the line if there is none. Hence positions in order have
offsets in order; the offset has a position whose offset it is; and the ranges that have a `span?` are those
whose ends have offsets in order, every range in order on lines of the text among them. -/
theorem offsets_round_forward (t : Text) :
    (∀ p, (ofText t).offset? p = none ↔ Text.newlines t + 1 ≤ p.line) ∧
    (∀ p o, (ofText t).offset? p = some o →
      IsLeast (t.boundariesFrom p) o ∨ (t.boundariesFrom p = ∅ ∧ IsGreatest (t.boundariesIn p.line) o)) ∧
    (∀ p q o o', (ofText t).offset? p = some o → (ofText t).offset? q = some o' → p ≤ q → o ≤ o') ∧
    (∀ p o, (ofText t).offset? p = some o →
      ∃ q, (ofText t).position? o = some q ∧ (ofText t).offset? q = some o) ∧
    (∀ r s e, (ofText t).span? r = some (s, e) ↔
      (ofText t).offset? r.start = some s ∧ (ofText t).offset? r.stop = some e ∧ s ≤ e) ∧
    ∀ r : Range, r.start ≤ r.stop → r.start.line < Text.newlines t + 1 → r.stop.line < Text.newlines t + 1 →
      ∃ s e, (ofText t).span? r = some (s, e) := by
  refine ⟨fun p => offset?_eq_none_iff, fun p o => isLeast_or_isGreatest_of_offset?, fun p q o o' => offset?_le_offset?,
    fun p o h => ?_, fun r s e => span?_eq_some_iff, fun r hle hstart hstop => ?_⟩
  · obtain ⟨a, b, rfl, rfl⟩ := exists_cut_of_offset? h
    exact ⟨_, position?_append .., offset?_endPosition ..⟩
  · have hexists {p : Position} (hp : p.line < Text.newlines t + 1) : ∃ o, (ofText t).offset? p = some o := by
      refine Option.ne_none_iff_exists'.1 fun hnone => ?_
      have := offset?_eq_none_iff.1 hnone
      omega
    obtain ⟨s, hs⟩ := hexists hstart
    obtain ⟨e, he⟩ := hexists hstop
    exact ⟨s, e, span?_eq_some_iff.2 ⟨hs, he, offset?_le_offset? hs he hle⟩⟩

/-- Between the two units of a character, behind the end of a line and on the empty last line. -/
theorem offsets_round_forward_pair :
    let t : Text := ['a', '😀', 'b', '\n']
    ((ofText t).offset? ⟨0, 2⟩ = some 5 ∧ IsLeast (t.boundariesFrom ⟨0, 2⟩) 5) ∧
      ((ofText t).offset? ⟨0, 9⟩ = some 6 ∧ IsGreatest (t.boundariesIn 0) 6) ∧
      (ofText t).offset? ⟨2, 0⟩ = none ∧ ∃ s e, (ofText t).span? ⟨⟨0, 9⟩, ⟨1, 3⟩⟩ = some (s, e) := by
  intro t
  have hpair : (ofText t).offset? ⟨0, 2⟩ = some 5 := by decide
  have hpast : (ofText t).offset? ⟨0, 9⟩ = some 6 := by decide
  obtain ⟨hnone, hround, -, -, -, hspan⟩ := offsets_round_forward t
  refine ⟨⟨hpair, ?_⟩, ⟨hpast, ?_⟩, (hnone ⟨2, 0⟩).2 (by decide), hspan _ (by decide) (by decide) (by decide)⟩
  · rcases hround _ _ hpair with h | ⟨hempty, -⟩
    · exact h
    · have hmem : 5 ∈ t.boundariesFrom ⟨0, 2⟩ :=
        ⟨⟨['a', '😀'], ['b', '\n'], rfl, rfl, rfl⟩, ⟨0, 3⟩, by decide, by decide⟩
      rw [hempty] at hmem
      cases hmem
  · rcases hround _ _ hpast with ⟨⟨-, q, hq, hle⟩, -⟩ | ⟨-, h⟩
    · rw [show (ofText t).position? 6 = some ⟨0, 4⟩ by decide, Option.some.injEq] at hq
      subst hq
      exact absurd hle (by decide)
    · exact h

end LineTable

end EmbeddedMarkup
