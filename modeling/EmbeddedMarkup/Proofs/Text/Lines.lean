/-
The lines of a text and the offsets of positions in it. A line begins at the start of the text or
behind a line feed; the `LineTable` is read off one equation of `Line.split`, that what stands behind a complete
line is split on its own. So a position that counts the line feeds in front of a place, and the
UTF-16 units between the last of them and the place, has the offset of that place.
-/
import EmbeddedMarkup.Proofs.Text.Cuts
import EmbeddedMarkup.Text.Lines
import Mathlib.Data.List.TakeWhile

namespace EmbeddedMarkup

namespace Text

@[simp] theorem unitLength_nil : unitLength [] = 0 := rfl

@[simp] theorem unitLength_cons (c : Char) (t : Text) : unitLength (c :: t) = charUnits c + unitLength t := rfl

theorem charUnits_pos (c : Char) : 0 < charUnits c := by
  unfold charUnits
  split <;> omega

theorem charUnits_le_two (c : Char) : charUnits c ≤ 2 := by
  unfold charUnits
  split <;> omega

@[simp] theorem newlines_nil : newlines [] = 0 := rfl

theorem newlines_cons (c : Char) (t : Text) : newlines (c :: t) = newlines t + if c = '\n' then 1 else 0 := by
  simp [newlines, List.count_cons]

@[simp] theorem newlines_append (a b : Text) : newlines (a ++ b) = newlines a + newlines b :=
  List.count_append

/-- Whether a new line begins behind `t`. -/
def EndsLine (t : Text) : Prop :=
  t = [] ∨ t.getLast? = some '\n'

theorem endsLine_nil : EndsLine [] := .inl rfl

/-- What ends a line still does so without its first character. -/
theorem EndsLine.tail {c : Char} {t : Text} (h : EndsLine (c :: t)) : EndsLine t := by
  rcases h with h | h
  · cases h
  · cases t with
    | nil => exact endsLine_nil
    | cons d t => exact .inr (by rwa [List.getLast?_cons_cons] at h)

/-- A part without a line feed is in the first line. -/
theorem takeWhile_append_of_not_mem {front : Text} (hf : '\n' ∉ front) (rest : Text) :
    (front ++ rest).takeWhile (· ≠ '\n') = front ++ rest.takeWhile (· ≠ '\n') := by
  refine List.takeWhile_append_of_pos fun c hc => ?_
  simpa using fun h : c = '\n' => hf (h ▸ hc)

theorem newline_not_mem_takeWhile (t : Text) : '\n' ∉ t.takeWhile (· ≠ '\n') := fun h => by
  simpa using List.mem_takeWhile_imp h

/-- What is behind the first line begins with a line feed, if there is anything. -/
theorem dropWhile_eq_nil_or_cons (t : Text) :
    t.dropWhile (· ≠ '\n') = [] ∨ ∃ rest, t.dropWhile (· ≠ '\n') = '\n' :: rest := by
  cases h : t.dropWhile (· ≠ '\n') with
  | nil => exact .inl rfl
  | cons c rest =>
    have hc := List.head_dropWhile_not (· ≠ '\n') (w := by rw [h]; simp)
    simp only [h, List.head_cons] at hc
    exact .inr ⟨rest, by simpa using hc⟩

/-- A single character that ends a line is a line feed. -/
theorem EndsLine.eq_newline {c : Char} (h : EndsLine [c]) : c = '\n' := by
  rcases h with h | h
  · cases h
  · simpa using h

end Text

namespace Line

/-! ## Splitting into lines -/

theorem split_cons_newline (start : Nat) (t : Text) :
    split start ('\n' :: t) = ⟨start, []⟩ :: split (start + 1) t := by
  rw [split, if_pos rfl]

theorem split_ne_nil (start : Nat) (t : Text) : split start t ≠ [] := by
  cases t with
  | nil => simp [split]
  | cons c t =>
    rw [split]
    split
    · simp
    · split <;> simp

/-- `split` puts a character that ends no line to the front of the first line. -/
theorem split_cons_of_ne {c : Char} (hc : c ≠ '\n') (start : Nat) (t : Text) :
    ∃ l ls, split (start + c.utf8Size) t = l :: ls ∧ split start (c :: t) = ⟨start, c :: l.text⟩ :: ls := by
  obtain ⟨l, ls, h⟩ := List.exists_cons_of_ne_nil (split_ne_nil (start + c.utf8Size) t)
  refine ⟨l, ls, h, ?_⟩
  rw [split, if_neg hc, h]

/-- The first line goes as far as the first line feed, and the others begin behind that. -/
theorem split_eq_cons (start : Nat) (t : Text) :
    ∃ rest, split start t = ⟨start, t.takeWhile (· ≠ '\n')⟩ :: rest ∧
      ∀ l ∈ rest, start + Text.byteLength (t.takeWhile (· ≠ '\n')) < l.start := by
  induction t generalizing start with
  | nil => exact ⟨[], rfl, by simp⟩
  | cons c t ih =>
    obtain ⟨rest, hsplit, hrest⟩ := ih (start + c.utf8Size)
    by_cases hc : c = '\n'
    · subst hc
      rw [show start + Char.utf8Size '\n' = start + 1 from rfl] at hsplit hrest
      refine ⟨split (start + 1) t, by rw [split_cons_newline]; simp, fun l hl => ?_⟩
      rw [List.takeWhile_cons_of_neg (by simp), Text.byteLength_nil]
      rw [hsplit] at hl
      rcases List.mem_cons.1 hl with rfl | hl
      · simp
      · have := hrest l hl
        omega
    · obtain ⟨l, ls, h1, h2⟩ := split_cons_of_ne hc start t
      rw [h1, List.cons.injEq] at hsplit
      rw [List.takeWhile_cons_of_pos (by simpa using hc)]
      refine ⟨rest, by rw [h2, hsplit.1, hsplit.2], fun l hl => ?_⟩
      have := hrest l hl
      rw [Text.byteLength_cons]; omega

theorem getElem?_split_zero (start : Nat) (t : Text) :
    (split start t)[0]? = some ⟨start, t.takeWhile (· ≠ '\n')⟩ := by
  obtain ⟨rest, h, -⟩ := split_eq_cons start t
  rw [h, List.getElem?_cons_zero]

/-- What stands behind a part that `EndsLine` is split on its own. -/
theorem split_append {a : Text} (ha : Text.EndsLine a) (b : Text) (start : Nat) :
    ∃ done, split start (a ++ b) = done ++ split (start + Text.byteLength a) b ∧ done.length = Text.newlines a ∧
      ∀ l ∈ done, l.start < start + Text.byteLength a := by
  induction a generalizing start with
  | nil => exact ⟨[], by simp, rfl, by simp⟩
  | cons c a ih =>
    obtain ⟨done, hsplit, hlen, hstart⟩ := ih ha.tail (start + c.utf8Size)
    have hpos := c.utf8Size_pos
    rw [Nat.add_assoc, ← Text.byteLength_cons] at hsplit hstart
    by_cases hc : c = '\n'
    · subst hc
      refine ⟨⟨start, []⟩ :: done, ?_, ?_, ?_⟩
      · rw [List.cons_append, split_cons_newline, List.cons_append, ← hsplit]; rfl
      · rw [Text.newlines_cons, if_pos rfl, List.length_cons, hlen]
      · rintro l (_ | ⟨_, hl⟩)
        · rw [Text.byteLength_cons]; simp only; omega
        · exact hstart l hl
    · -- The line that `c` is in goes on, so that the rest of the part has a line feed.
      have hne : done ≠ [] := by
        rintro rfl
        rcases ha.tail with rfl | h
        · exact hc ha.eq_newline
        · have hpos : 0 < Text.newlines a := List.count_pos_iff.2 (List.mem_of_getLast? h)
          rw [← hlen] at hpos
          exact Nat.lt_irrefl _ hpos
      obtain ⟨d, done, rfl⟩ := List.exists_cons_of_ne_nil hne
      obtain ⟨l, ls, h1, h2⟩ := split_cons_of_ne hc start (a ++ b)
      rw [h1, List.cons_append, List.cons.injEq] at hsplit
      refine ⟨⟨start, c :: l.text⟩ :: done, ?_, ?_, ?_⟩
      · rw [List.cons_append, h2, hsplit.2, List.cons_append]
      · rw [Text.newlines_cons, if_neg hc, ← hlen]; rfl
      · rintro l (_ | ⟨_, hl⟩)
        · rw [Text.byteLength_cons]; simp only; omega
        · exact hstart l (List.mem_cons_of_mem _ hl)

theorem getElem?_split_append {a : Text} (ha : Text.EndsLine a) (b : Text) (start n : Nat) :
    (split start (a ++ b))[Text.newlines a + n]? = (split (start + Text.byteLength a) b)[n]? := by
  obtain ⟨done, h, hlen, -⟩ := split_append ha b start
  rw [h, ← hlen, List.getElem?_append_right (Nat.le_add_right _ _), Nat.add_sub_cancel_left]

/-- `bytesToColumn` of the column behind the first part of a line is as far as that part is long. -/
theorem bytesToColumn_append (a b : Text) : bytesToColumn (a ++ b) (Text.unitLength a) = Text.byteLength a := by
  induction a with
  | nil => cases b <;> simp [bytesToColumn]
  | cons c a ih =>
    have hpos := Text.charUnits_pos c
    rw [List.cons_append, bytesToColumn, Text.unitLength_cons, if_neg (by omega), Nat.add_sub_cancel_left, ih,
      Text.byteLength_cons]

/-- A column at or behind the end of a line stands for that end. -/
theorem bytesToColumn_of_le {t : Text} {units : Nat} (h : Text.unitLength t ≤ units) :
    bytesToColumn t units = Text.byteLength t := by
  induction t generalizing units with
  | nil => rfl
  | cons c t ih =>
    have hpos := Text.charUnits_pos c
    rw [Text.unitLength_cons] at h
    rw [bytesToColumn, if_neg (by omega), ih (by omega), Text.byteLength_cons]

end Line

namespace LineTable

/-- The offset of a column in the line behind `before`, which ends a line. -/
theorem offset?_line {before : Text} (hb : Text.EndsLine before) (rest : Text) (units : Nat) :
    (ofText (before ++ rest)).offset? ⟨Text.newlines before, units⟩ =
      some (Text.byteLength before + Line.bytesToColumn (rest.takeWhile (· ≠ '\n')) units) := by
  have h := Line.getElem?_split_append hb rest 0 0
  rw [Nat.add_zero, Nat.zero_add, Line.getElem?_split_zero] at h
  unfold offset? ofText
  simp only [h, Option.map_some]

/-- The offset of the position behind `before`, which ends a line, and a part of the line after
it. -/
theorem offset?_append {before front : Text} (hb : Text.EndsLine before) (hf : '\n' ∉ front) (rest : Text) :
    (ofText (before ++ front ++ rest)).offset? ⟨Text.newlines before, Text.unitLength front⟩ =
      some (Text.byteLength (before ++ front)) := by
  rw [List.append_assoc, offset?_line hb, Text.takeWhile_append_of_not_mem hf, Line.bytesToColumn_append,
    Text.byteLength_append]

end LineTable

end EmbeddedMarkup
