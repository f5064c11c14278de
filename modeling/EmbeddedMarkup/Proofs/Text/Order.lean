/-
The order of the positions of a text. The `endPosition` of two parts is that of the second, counted by
`Position.plus` from that of the first; what is behind a longer part therefore comes later, and exact
positions are in the order of their offsets. So the way from character boundaries to positions keeps the
order strictly, and the way back leads to the same boundary.
-/
import EmbeddedMarkup.Proofs.Text.Units

namespace EmbeddedMarkup

namespace Position

/-- The position that is `p` for one who counts from `start`: columns are counted from there on its own
line only. -/
def plus (start p : Position) : Position :=
  ⟨start.line + p.line, if p.line = 0 then start.character + p.character else p.character⟩

theorem le_iff {p q : Position} : p ≤ q ↔ p.line < q.line ∨ (p.line = q.line ∧ p.character ≤ q.character) :=
  Iff.rfl

/-- Strict lexicographic order: by line, then by column. -/
protected def lt (p q : Position) : Prop :=
  p.line < q.line ∨ (p.line = q.line ∧ p.character < q.character)

instance : LT Position := ⟨Position.lt⟩

instance (p q : Position) : Decidable (p < q) :=
  inferInstanceAs (Decidable (p.line < q.line ∨ (p.line = q.line ∧ p.character < q.character)))

theorem lt_iff_not_le {p q : Position} : p < q ↔ ¬ q ≤ p := by
  rw [le_iff]
  show (p.line < q.line ∨ (p.line = q.line ∧ p.character < q.character)) ↔ _
  omega

theorem le_trans {p q r : Position} (h : p ≤ q) (h' : q ≤ r) : p ≤ r := by
  rw [le_iff] at h h' ⊢
  omega

theorem le_plus (start p : Position) : start ≤ start.plus p := by
  rw [le_iff, plus]
  split <;> simp only <;> omega

/-- Only what is at the very place comes no later. -/
theorem eq_zero_of_plus_le {start p : Position} (h : start.plus p ≤ start) : p = ⟨0, 0⟩ := by
  obtain ⟨line, character⟩ := p
  rw [le_iff, plus] at h
  simp only at h
  split_ifs at h with hline
  · rw [Position.mk.injEq]
    omega
  · omega

end Position

namespace Text

theorem endPosition_of_not_mem {t : Text} (h : '\n' ∉ t) : endPosition t = ⟨0, unitLength t⟩ :=
  endPosition_append endsLine_nil h

/-- The `endPosition` of two parts is that of the second, counted from that of the first. -/
theorem endPosition_plus (a b : Text) : endPosition (a ++ b) = (endPosition a).plus (endPosition b) := by
  by_cases h : '\n' ∈ b
  · have hline : newlines b ≠ 0 := fun h0 => List.count_eq_zero.1 h0 h
    unfold endPosition Position.plus
    rw [newlines_append, rtakeWhile_append_of_mem a h, if_neg hline]
  · obtain ⟨before, front, rfl, hb, hf, hp⟩ := exists_lines_append a
    have hfb : '\n' ∉ front ++ b := by simp [hf, h]
    rw [List.append_assoc, endPosition_append hb hfb, hp, endPosition_of_not_mem h, unitLength_append]
    rfl

theorem endPosition_le_append (a b : Text) : endPosition a ≤ endPosition (a ++ b) := by
  rw [endPosition_plus]
  exact Position.le_plus ..

/-- Behind a part that is not empty is not where the text begins. -/
theorem eq_nil_of_endPosition {t : Text} (h : endPosition t = ⟨0, 0⟩) : t = [] := by
  have hline : '\n' ∉ t := List.count_eq_zero.1 (congrArg Position.line h)
  rw [endPosition_of_not_mem hline, Position.mk.injEq] at h
  cases t with
  | nil => rfl
  | cons c t =>
    have := charUnits_pos c
    rw [unitLength_cons] at h
    omega

/-- Each `endPosition` of a part in front is in the order of the cuts. -/
theorem endPosition_le_iff {a b a' b' : Text} (h : a ++ b = a' ++ b') :
    endPosition a ≤ endPosition a' ↔ byteLength a ≤ byteLength a' := by
  constructor
  · intro hle
    by_contra hlt
    obtain ⟨m, rfl, -⟩ := exists_middle byteLength_append byteLength_cons_pos h.symm (Nat.le_of_not_le hlt)
    rw [endPosition_plus] at hle
    rw [eq_nil_of_endPosition (Position.eq_zero_of_plus_le hle), List.append_nil] at hlt
    exact hlt (Nat.le_refl _)
  · intro hle
    obtain ⟨m, rfl, -⟩ := exists_middle byteLength_append byteLength_cons_pos h hle
    exact endPosition_le_append ..

theorem endPosition_lt_iff {a b a' b' : Text} (h : a ++ b = a' ++ b') :
    endPosition a < endPosition a' ↔ byteLength a < byteLength a' := by
  rw [Position.lt_iff_not_le, endPosition_le_iff h.symm, Nat.not_le]

/-! ## Numbers of bounded size -/

theorem charUnits_le_utf8Size (c : Char) : charUnits c ≤ c.utf8Size := by
  have hpos := c.utf8Size_pos
  unfold charUnits
  split
  · exact hpos
  · rename_i hc
    -- only a character of the basic plane has a single byte
    have hone : c.utf8Size ≠ 1 := fun h =>
      hc (Nat.lt_of_le_of_lt (UInt32.le_iff_toNat_le.1 (Char.utf8Size_eq_one_iff.1 h)) (by decide))
    omega

theorem unitLength_le_byteLength (t : Text) : unitLength t ≤ byteLength t := by
  induction t with
  | nil => exact Nat.le_refl 0
  | cons c t ih =>
    have := charUnits_le_utf8Size c
    rw [unitLength_cons, byteLength_cons]
    omega

theorem newlines_le_byteLength (t : Text) : newlines t ≤ byteLength t := by
  induction t with
  | nil => exact Nat.le_refl 0
  | cons c t ih =>
    have := c.utf8Size_pos
    rw [newlines_cons, byteLength_cons]
    split <;> omega

end Text

namespace LineTable

/-- Character boundaries and their positions determine each other, and are in the same order. What
`position?` gives for a boundary counts the line feeds in front of it and the UTF-16 units between the last of
them and the boundary, two numbers that fit into 32 bits if the text is shorter than that; `offset?` of
this position is the boundary, and boundaries one behind the other have positions strictly one behind the
other. -/
theorem offsets_embed (t : Text) :
    (∀ o, t.isBoundary o = true → ∃ p before line rest, t = before ++ line ++ rest ∧
      o = Text.byteLength (before ++ line) ∧ before.EndsLine ∧ '\n' ∉ line ∧
      (ofText t).position? o = some p ∧ (ofText t).offset? p = some o ∧
      p.line = Text.newlines (before ++ line) ∧ p.character = (Units.ofText line).length ∧
      (Text.byteLength t < UInt32.size → p.line < UInt32.size ∧ p.character < UInt32.size)) ∧
    ∀ o o' p p', t.isBoundary o = true → t.isBoundary o' = true → (ofText t).position? o = some p →
      (ofText t).position? o' = some p' → (p < p' ↔ o < o') := by
  refine ⟨fun o ho => ?_, fun o o' p p' ho ho' hp hp' => ?_⟩
  · obtain ⟨a, rest, rfl, rfl⟩ := Text.isBoundary_iff.1 ho
    obtain ⟨before, line, rfl, hb, hl, hend⟩ := Text.exists_lines_append a
    have hnewlines : Text.newlines (before ++ line) = Text.newlines before := by
      rw [Text.newlines_append, Text.newlines_eq_zero hl, Nat.add_zero]
    refine ⟨_, before, line, rest, rfl, rfl, hb, hl, position?_append .., offset?_endPosition .., ?_, ?_, ?_⟩
    · rw [hend, hnewlines]
    · rw [hend, Units.length_ofText]
    · intro hsize
      have hlines := Text.newlines_le_byteLength before
      have hunits := Text.unitLength_le_byteLength line
      simp only [Text.byteLength_append] at hsize
      rw [hend]
      constructor <;> simp only <;> omega
  · obtain ⟨a, b, rfl, rfl⟩ := Text.isBoundary_iff.1 ho
    obtain ⟨a', b', ht, rfl⟩ := Text.isBoundary_iff.1 ho'
    rw [position?_append, Option.some.injEq] at hp
    rw [ht, position?_append, Option.some.injEq] at hp'
    rw [← hp, ← hp', Text.endPosition_lt_iff ht]

/-- The end of a line behind a character of two units, and the start of the next line. -/
theorem offsets_embed_line_end :
    let t : Text := ['é', '😀', '\n', 'b']
    (t.isBoundary 6 = true ∧ t.isBoundary 7 = true) ∧ (ofText t).position? 6 = some ⟨0, 3⟩ ∧
      (ofText t).position? 7 = some ⟨1, 0⟩ ∧ (ofText t).offset? ⟨0, 3⟩ = some 6 ∧ (⟨0, 3⟩ : Position) < ⟨1, 0⟩ := by
  intro t
  have hend : t.isBoundary 6 = true := by decide
  have hnext : t.isBoundary 7 = true := by decide
  have hp : (ofText t).position? 6 = some ⟨0, 3⟩ := by decide
  have hp' : (ofText t).position? 7 = some ⟨1, 0⟩ := by decide
  obtain ⟨p, -, -, -, -, -, -, -, hposition, hoffset, -⟩ := (offsets_embed t).1 6 hend
  obtain rfl : ⟨0, 3⟩ = p := Option.some.inj (hp.symm.trans hposition)
  exact ⟨⟨hend, hnext⟩, hp, hp', hoffset, ((offsets_embed t).2 6 7 _ _ hend hnext hp hp').2 (by decide)⟩

end LineTable

end EmbeddedMarkup
