/-
Positions of the cuts of a text. The `endPosition` of a part counts the line feeds in it and the
UTF-16 units behind the last of them; these are the positions that `IsExact` is about. Offset and position of a cut
determine each other, and whatever position an offset is asked for, the offset is that of a cut. So
a change takes out what stands between two cuts, or nothing.
-/
import EmbeddedMarkup.Proofs.Text.Lines
import EmbeddedMarkup.Text.Change
import Mathlib.Data.List.DropRight

namespace EmbeddedMarkup

namespace Text

/-! ## The position behind a text -/

/-- The position behind a text. -/
def endPosition (t : Text) : Position :=
  ⟨newlines t, unitLength (t.rtakeWhile (· ≠ '\n'))⟩

/-- Whether `p` is the position of a character boundary of `t`. -/
def IsExact (t : Text) (p : Position) : Prop :=
  ∃ a b, t = a ++ b ∧ p = endPosition a

/-- Whether `p` lies between the two units of a character of `t`. -/
def SplitsPair (t : Text) (p : Position) : Prop :=
  ∃ a c b, t = a ++ c :: b ∧ charUnits c = 2 ∧ p = ⟨(endPosition a).line, (endPosition a).character + 1⟩

theorem newlines_eq_zero {t : Text} (h : '\n' ∉ t) : newlines t = 0 :=
  List.count_eq_zero.2 h

theorem rtakeWhile_append_of_mem (a : Text) {b : Text} (h : '\n' ∈ b) :
    (a ++ b).rtakeWhile (· ≠ '\n') = b.rtakeWhile (· ≠ '\n') := by
  unfold List.rtakeWhile
  rw [List.reverse_append, List.takeWhile_append, if_neg]
  intro hlen
  have hall := (List.takeWhile_prefix (· ≠ '\n') (l := b.reverse)).eq_of_length hlen
  have := List.mem_takeWhile_imp (hall.symm ▸ List.mem_reverse.2 h)
  simp at this

/-- The `endPosition` of complete lines and a part of the line after them. -/
theorem endPosition_append {before front : Text} (hb : EndsLine before) (hf : '\n' ∉ front) :
    endPosition (before ++ front) = ⟨newlines before, unitLength front⟩ := by
  have hpos : ∀ c ∈ front.reverse, decide (c ≠ '\n') = true := fun c hc => by
    simpa using fun h : c = '\n' => hf (h ▸ List.mem_reverse.1 hc)
  have hstop : before.reverse.takeWhile (· ≠ '\n') = [] := by
    rcases hb with rfl | hlast
    · rfl
    · obtain ⟨x, rfl⟩ := List.getLast?_eq_some_iff.1 hlast
      simp
  unfold endPosition List.rtakeWhile
  rw [newlines_append, newlines_eq_zero hf, List.reverse_append, List.takeWhile_append_of_pos hpos, hstop]
  simp

/-- A text is complete lines and the part of a line behind them. -/
theorem exists_lines_append (t : Text) : ∃ before front, t = before ++ front ∧ EndsLine before ∧ '\n' ∉ front ∧
    endPosition t = ⟨newlines before, unitLength front⟩ := by
  have ht : t = t.rdropWhile (· ≠ '\n') ++ t.rtakeWhile (· ≠ '\n') :=
    (List.rdropWhile_append_rtakeWhile (p := (· ≠ '\n')) (l := t)).symm
  have hfront : '\n' ∉ t.rtakeWhile (· ≠ '\n') := by
    intro h
    simpa using List.mem_rtakeWhile_imp h
  have hbefore : EndsLine (t.rdropWhile (· ≠ '\n')) := by
    by_cases hnil : t.rdropWhile (· ≠ '\n') = []
    · exact .inl hnil
    · have hlast := List.rdropWhile_last_not (· ≠ '\n') t hnil
      right
      rw [List.getLast?_eq_some_getLast hnil]
      simpa using hlast
  exact ⟨_, _, ht, hbefore, hfront, (congrArg endPosition ht).trans (endPosition_append hbefore hfront)⟩

/-- Every line begins behind a part that ends a line. -/
theorem exists_endsLine {t : Text} {n : Nat} (h : n ≤ newlines t) :
    ∃ before rest, t = before ++ rest ∧ EndsLine before ∧ newlines before = n := by
  induction t generalizing n with
  | nil => exact ⟨[], [], rfl, endsLine_nil, by simp at h; simp [h]⟩
  | cons c t ih =>
    cases n with
    | zero => exact ⟨[], c :: t, rfl, endsLine_nil, rfl⟩
    | succ n =>
      rw [newlines_cons] at h
      obtain ⟨before, rest, rfl, hb, hn⟩ := ih (n := if c = '\n' then n else n + 1) (by split_ifs at h ⊢ <;> omega)
      refine ⟨c :: before, rest, rfl, .inr ?_, ?_⟩
      · rcases hb with rfl | hb
        · -- Nothing in front of the line but `c`, which therefore ends one.
          split_ifs at hn with hc
          · rw [hc]; rfl
          · simp at hn
        · rw [List.getLast?_cons, hb]; rfl
      · rw [newlines_cons, hn]
        split_ifs <;> rfl

end Text

namespace Line

theorem length_split (start : Nat) (t : Text) : (split start t).length = Text.newlines t + 1 := by
  induction t generalizing start with
  | nil => rfl
  | cons c t ih =>
    rw [Text.newlines_cons]
    by_cases hc : c = '\n'
    · subst hc
      rw [split_cons_newline, List.length_cons, ih, if_pos rfl]
    · obtain ⟨l, ls, h1, h2⟩ := split_cons_of_ne hc start t
      have := ih (start + c.utf8Size)
      rw [h1] at this
      rw [h2, if_neg hc]
      exact this

/-- The bytes in front of a column are those of whole characters. They have as many units as the column
says, unless the line ends in front of it, or it lies between the two units of the last of them. -/
theorem exists_bytesToColumn (t : Text) (units : Nat) :
    ∃ a b, t = a ++ b ∧ bytesToColumn t units = Text.byteLength a ∧
      (Text.unitLength a = units ∨ (Text.unitLength a < units ∧ b = []) ∨
        ∃ x c, a = x ++ [c] ∧ Text.charUnits c = 2 ∧ units = Text.unitLength x + 1) := by
  induction t generalizing units with
  | nil =>
    refine ⟨[], [], rfl, rfl, ?_⟩
    rcases Nat.eq_zero_or_pos units with rfl | hpos
    · exact .inl rfl
    · exact .inr (.inl ⟨hpos, rfl⟩)
  | cons c t ih =>
    rw [bytesToColumn]
    split
    · rename_i h0
      exact ⟨[], c :: t, rfl, rfl, .inl h0.symm⟩
    · rename_i h0
      by_cases hc : Text.charUnits c ≤ units
      · obtain ⟨a, b, rfl, hbytes, hunits⟩ := ih (units - Text.charUnits c)
        refine ⟨c :: a, b, rfl, by rw [hbytes, Text.byteLength_cons], ?_⟩
        rcases hunits with h | ⟨h, hb⟩ | ⟨x, c', rfl, hc', h⟩
        · exact .inl (by rw [Text.unitLength_cons]; omega)
        · exact .inr (.inl ⟨by rw [Text.unitLength_cons]; omega, hb⟩)
        · exact .inr (.inr ⟨c :: x, c', rfl, hc', by rw [Text.unitLength_cons]; omega⟩)
      · -- the column is inside of `c`
        have htwo := Text.charUnits_le_two c
        refine ⟨[c], t, rfl, ?_, .inr (.inr ⟨[], c, rfl, ?_, ?_⟩)⟩
        · rw [Nat.sub_eq_zero_of_le (by omega)]
          cases t <;> simp [bytesToColumn]
        · omega
        · rw [Text.unitLength_nil]; omega

end Line

namespace LineTable

/-! ## Offsets of positions -/

theorem offset?_endPosition (a b : Text) :
    (ofText (a ++ b)).offset? (Text.endPosition a) = some (Text.byteLength a) := by
  obtain ⟨before, front, rfl, hb, hf, hp⟩ := Text.exists_lines_append a
  rw [hp, offset?_append hb hf]

/-- `offset?` gives nothing only for a position on a line that does not exist. -/
theorem offset?_eq_none_iff {t : Text} {p : Position} : (ofText t).offset? p = none ↔ Text.newlines t < p.line := by
  unfold offset? ofText
  rw [Option.map_eq_none_iff, List.getElem?_eq_none_iff, Line.length_split]
  exact Nat.succ_le_iff

/-- The offset of any position is a character boundary in its line. The part of the line in front of it
has as many units as the position says, unless the line ends before or the position lies between the two
units of a character. -/
theorem exists_line_of_offset? {t : Text} {p : Position} {o : Nat} (h : (ofText t).offset? p = some o) :
    ∃ before a b rest, t = before ++ (a ++ b) ++ rest ∧ Text.EndsLine before ∧ Text.newlines before = p.line ∧
      '\n' ∉ a ++ b ∧ rest.takeWhile (· ≠ '\n') = [] ∧ o = Text.byteLength (before ++ a) ∧
      (Text.unitLength a = p.character ∨ (Text.unitLength a < p.character ∧ b = []) ∨
        ∃ x c, a = x ++ [c] ∧ Text.charUnits c = 2 ∧ p.character = Text.unitLength x + 1) := by
  obtain ⟨line, hline, -⟩ := Option.map_eq_some_iff.1 h
  have hlt : p.line < (Line.split 0 t).length := (List.getElem?_eq_some_iff.1 hline).1
  rw [Line.length_split] at hlt
  obtain ⟨before, rest, rfl, hb, hn⟩ := Text.exists_endsLine (Nat.le_of_lt_succ hlt)
  obtain ⟨a, b, hab, hcol, hunits⟩ := Line.exists_bytesToColumn (rest.takeWhile (· ≠ '\n')) p.character
  have hoff := offset?_line hb rest p.character
  rw [hn, h, hcol, Option.some.injEq] at hoff
  refine ⟨before, a, b, rest.dropWhile (· ≠ '\n'), ?_, hb, hn, ?_, ?_, ?_, hunits⟩
  · rw [← hab, List.append_assoc, List.takeWhile_append_dropWhile]
  · exact hab ▸ Text.newline_not_mem_takeWhile rest
  · rcases Text.dropWhile_eq_nil_or_cons rest with h | ⟨later, h⟩
    · rw [h]; rfl
    · rw [h]; rfl
  · rw [hoff, Text.byteLength_append]

theorem exists_cut_of_offset? {t : Text} {p : Position} {o : Nat} (h : (ofText t).offset? p = some o) :
    ∃ a b, t = a ++ b ∧ o = Text.byteLength a := by
  obtain ⟨before, a, b, rest, rfl, -, -, -, -, rfl, -⟩ := exists_line_of_offset? h
  exact ⟨before ++ a, b ++ rest, by simp, rfl⟩

/-- The text in front of the offset of a position has as many line feeds as the position says. -/
theorem newlines_of_offset? {a b : Text} {p : Position} (h : (ofText (a ++ b)).offset? p = some (Text.byteLength a)) :
    Text.newlines a = p.line := by
  obtain ⟨before, x, y, rest, ht, -, hn, hxy, -, ho, -⟩ := exists_line_of_offset? h
  have hsplit : a ++ b = before ++ x ++ (y ++ rest) := by rw [ht]; simp
  have hx : '\n' ∉ x := fun hmem => hxy (List.mem_append_left y hmem)
  rw [(Text.cut_unique hsplit ho).1, Text.newlines_append, Text.newlines_eq_zero hx, hn, Nat.add_zero]

/-- `span?` gives two cuts in order. -/
theorem exists_parts_of_span? {t : Text} {r : Range} {s e : Nat} (h : (ofText t).span? r = some (s, e)) :
    ∃ a m b, t = a ++ m ++ b ∧ s = Text.byteLength a ∧ e = Text.byteLength a + Text.byteLength m := by
  unfold span? at h
  obtain ⟨s', hs, h⟩ := Option.bind_eq_some_iff.1 h
  obtain ⟨e', he, h⟩ := Option.bind_eq_some_iff.1 h
  split at h
  · rename_i hle
    cases h
    obtain ⟨a, b, rfl, rfl⟩ := exists_cut_of_offset? hs
    obtain ⟨a', b', ht, rfl⟩ := exists_cut_of_offset? he
    obtain ⟨m, rfl, rfl⟩ := Text.exists_middle Text.byteLength_append Text.byteLength_cons_pos ht hle
    exact ⟨a, m, b', by simp, rfl, Text.byteLength_append ..⟩
  · cases h

/-! ## Positions of offsets -/

/-- The line at an offset between the start and the end of a line, wherever it is there. -/
theorem lineAt_of_le {before : Text} (hb : Text.EndsLine before) (rest : Text) {o : Nat}
    (hstart : Text.byteLength before ≤ o)
    (hstop : o ≤ Text.byteLength before + Text.byteLength (rest.takeWhile (· ≠ '\n'))) :
    lineAt (Line.split 0 (before ++ rest)) o =
      (Text.newlines before, ⟨Text.byteLength before, rest.takeWhile (· ≠ '\n')⟩) := by
  obtain ⟨done, hsplit, hlen, hdone⟩ := Line.split_append hb rest 0
  obtain ⟨later, hcons, hlater⟩ := Line.split_eq_cons (0 + Text.byteLength before) rest
  rw [Nat.zero_add] at hcons hlater hsplit hdone
  rw [hcons] at hsplit
  -- The search stops at the line after it, which begins behind the line feed.
  have htake : (Line.split 0 (before ++ rest)).takeWhile (fun l => decide (l.start ≤ o)) =
      done ++ [⟨Text.byteLength before, rest.takeWhile (· ≠ '\n')⟩] := by
    rw [hsplit, List.takeWhile_append_of_pos, List.takeWhile_cons_of_pos (by simpa using hstart)]
    · cases later with
      | nil => rfl
      | cons l later =>
        have := hlater l (List.mem_cons_self ..)
        rw [List.takeWhile_cons_of_neg]
        simpa using by omega
    · intro l hl
      have := hdone l hl
      simpa using by omega
  unfold lineAt
  simp only [htake, List.length_append, List.length_singleton, hlen, Nat.add_sub_cancel, List.getLast?_concat,
    Option.getD_some]

/-- `lineAt` the end of a part is the line that the part ends in. -/
theorem lineAt_append {before front : Text} (hb : Text.EndsLine before) (hf : '\n' ∉ front) (rest : Text) :
    lineAt (Line.split 0 (before ++ (front ++ rest))) (Text.byteLength before + Text.byteLength front) =
      (Text.newlines before, ⟨Text.byteLength before, front ++ rest.takeWhile (· ≠ '\n')⟩) := by
  have hline := Text.takeWhile_append_of_not_mem hf rest
  rw [lineAt_of_le hb (front ++ rest) (Nat.le_add_right _ _), hline]
  rw [hline, Text.byteLength_append]
  omega

/-- `position?` of the offset behind a part of a text is the `endPosition` of the part. -/
theorem position?_append (a b : Text) :
    (ofText (a ++ b)).position? (Text.byteLength a) = some (Text.endPosition a) := by
  obtain ⟨before, front, rfl, hb, hf, hp⟩ := Text.exists_lines_append a
  have hmin : min (Text.byteLength before + Text.byteLength front) (Text.byteLength (before ++ front ++ b)) =
      Text.byteLength before + Text.byteLength front := by
    simp only [Text.byteLength_append]; omega
  have hmin' : min (Text.byteLength before + Text.byteLength front - Text.byteLength before)
      (Text.byteLength (front ++ b.takeWhile (· ≠ '\n'))) = Text.byteLength front := by
    rw [Text.byteLength_append]; omega
  unfold position? ofText
  simp only [Text.byteLength_append before front, hmin]
  rw [List.append_assoc, lineAt_append hb hf]
  simp only [hmin', Text.splitAt?_append, hp]
  rfl

end LineTable

namespace Change

/-! ## Changes -/

@[simp] theorem applyAll_singleton (t : Text) (c : Change) : applyAll t [c] = apply t c := rfl

/-- `apply` puts the text of a change in the place of its `span?`. -/
theorem apply_of_span? {a m b : Text} {r : Range} (n : Option Nat) (new : Text)
    (h : (LineTable.ofText (a ++ m ++ b)).span? r =
      some (Text.byteLength a, Text.byteLength a + Text.byteLength m)) :
    apply (a ++ m ++ b) ⟨some r, n, new⟩ = a ++ new ++ b := by
  simp only [apply, h, Option.bind_some, Text.replace?_append, Option.getD_some]

/-- A change without a `span?` changes nothing. -/
theorem apply_of_span?_none {t : Text} {r : Range} (n : Option Nat) (new : Text)
    (h : (LineTable.ofText t).span? r = none) : apply t ⟨some r, n, new⟩ = t := by
  simp only [apply, h, Option.bind_none, Option.getD_none]

theorem applyAll_concat (t : Text) (init : List Change) (last : Change) :
    applyAll t (init ++ [last]) = apply (applyAll t init) last :=
  List.foldl_concat ..

/-- A change of the empty range at a position puts its text there. -/
theorem apply_of_offset? {a b : Text} {p : Position} {c : Change} (hc : c.range = some ⟨p, p⟩)
    (h : (LineTable.ofText (a ++ b)).offset? p = some (Text.byteLength a)) : apply (a ++ b) c = a ++ c.text ++ b := by
  obtain ⟨range, n, new⟩ := c
  cases hc
  have hspan : (LineTable.ofText (a ++ [] ++ b)).span? ⟨p, p⟩ =
      some (Text.byteLength a, Text.byteLength a + Text.byteLength []) := by
    rw [List.append_nil, LineTable.span?, h]
    simp
  have := apply_of_span? n new hspan
  rwa [List.append_nil] at this

theorem apply_of_offset?_none {t : Text} {p : Position} {c : Change} (hc : c.range = some ⟨p, p⟩)
    (h : (LineTable.ofText t).offset? p = none) : apply t c = t := by
  obtain ⟨range, n, new⟩ := c
  cases hc
  refine apply_of_span?_none n new ?_
  rw [LineTable.span?, h]
  rfl

end Change

end EmbeddedMarkup
