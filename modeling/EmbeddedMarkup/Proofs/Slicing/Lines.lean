/-
Lines by slices. A text is kept in an `Index` with the offsets at which its lines begin; a line is the slice from its
start to the start of the next one, and the column of an offset is measured on the slice in front of it.
None of these slices fails on the way from a position to its offset, or from a character boundary to its
position, and what comes out is what the `LineTable` gives; only an offset inside a character has no
position. So changes can be made by cutting, whatever ranges they name.
-/
import EmbeddedMarkup.Proofs.Mask.Bytes
import EmbeddedMarkup.Proofs.Slicing.Basic
import EmbeddedMarkup.Proofs.Text.Rounding

namespace EmbeddedMarkup.Slicing

/-! ## The index of a text -/

/-- A text with the offsets of the first bytes of its lines. -/
structure Index where
  starts : List Nat
  text : Text

namespace Index

/-- The index of a text: a line starts where the text does and behind every line feed. -/
def ofText (t : Text) : Index where
  starts := 0 :: ((List.range (Text.byteLength t)).filter fun o => (Utf8.encode t)[o]? = some 0x0A).map (· + 1)
  text := t

/-- The span of line `n`, without its line feed. -/
def lineSpan (x : Index) (n : Nat) : Slicing (Nat × Nat) := do
  let start ← entry x.starts n
  match x.starts[n + 1]? with
  | some next => return (start, ← distance 1 next)
  | none => return (start, Text.byteLength x.text)

/-- The position of an offset that is not beyond the end. -/
def positionWithin (x : Index) (o : Nat) : Slicing Position := do
  let number := (x.starts.takeWhile (· ≤ o)).length - 1
  let (start, stop) ← x.lineSpan number
  let front ← slice x.text start (max (min o stop) start)
  return ⟨number, Text.unitLength front⟩

/-- The position of an offset, which is noted; one beyond the end is moved to the end. -/
def position (x : Index) (o : Nat) : Slicing Position := do
  note ⟨x.text, o⟩
  x.positionWithin (min o (Text.byteLength x.text))

/-- The offset of a position; there is none when its line does not exist. -/
def offset (x : Index) (p : Position) : Slicing (Option Nat) := do
  if p.line < x.starts.length then
    let (start, stop) ← x.lineSpan p.line
    let line ← slice x.text start stop
    return some (start + Line.bytesToColumn line p.character)
  else
    return none

/-- The offsets of both ends of a range, when both exist and are in order. -/
def span (x : Index) (r : Range) : Slicing (Option (Nat × Nat)) :=
  andThen (x.offset r.start) fun s =>
    andThen (x.offset r.stop) fun e =>
      return if s ≤ e then some (s, e) else none

end Index

/-- The text after one change. -/
def change (t : Text) (c : Change) : Slicing Text :=
  match c.range with
  | none => return c.text
  | some r => do
    match ← (Index.ofText t).span r with
    | none => return t
    | some (s, e) => return (← slice t 0 s) ++ c.text ++ (← slice t e (Text.byteLength t))

/-- The text after a list of changes, each made by `change`. -/
def changeAll (t : Text) (changes : List Change) : Slicing Text :=
  changes.foldlM change t

namespace Index

/-! ## Lines of the index -/

theorem starts_ofText (t : Text) : (ofText t).starts = (Line.split 0 t).map (·.start) := by
  rw [Line.map_start_split]
  simp only [ofText, Nat.zero_add]

theorem length_starts (t : Text) : (ofText t).starts.length = Text.newlines t + 1 := by
  rw [starts_ofText, List.length_map, Line.length_split]

section Line

variable {before rest : Text} (hb : Text.EndsLine before)

include hb

theorem getElem?_starts (rest : Text) :
    (ofText (before ++ rest)).starts[Text.newlines before]? = some (Text.byteLength before) := by
  have h := Line.getElem?_split_append hb rest 0 0
  rw [Nat.add_zero, Nat.zero_add, Line.getElem?_split_zero] at h
  rw [starts_ofText, List.getElem?_map, h, Option.map_some]

/-- The line behind complete lines goes as far as the next line feed, or to the end of the text. -/
theorem returns_lineSpan (rest : Text) :
    Returns ((ofText (before ++ rest)).lineSpan (Text.newlines before))
      (Text.byteLength before, Text.byteLength (before ++ rest.takeWhile (· ≠ '\n'))) := by
  have hrest := (List.takeWhile_append_dropWhile (p := (· ≠ '\n')) (l := rest)).symm
  have hline : Text.newlines (before ++ rest.takeWhile (· ≠ '\n')) = Text.newlines before := by
    rw [Text.newlines_append, Text.newlines_eq_zero (Text.newline_not_mem_takeWhile rest), Nat.add_zero]
  unfold lineSpan
  refine (returns_entry (getElem?_starts hb rest)).bind ?_
  rcases Text.dropWhile_eq_nil_or_cons rest with hd | ⟨later, hd⟩
  · rw [hd, List.append_nil] at hrest
    have hlast : (ofText (before ++ rest)).starts[Text.newlines before + 1]? = none := by
      rw [List.getElem?_eq_none_iff, length_starts, hrest, hline]
    rw [hlast, ← hrest]
    exact returns_pure _
  · -- the next line begins behind the line feed
    have hends : Text.EndsLine (before ++ rest.takeWhile (· ≠ '\n') ++ ['\n']) := .inr (by simp)
    have hnext := getElem?_starts hends later
    rw [hd] at hrest
    rw [Text.newlines_append, hline, Text.byteLength_append, List.append_assoc, List.append_assoc,
      List.singleton_append, ← hrest] at hnext
    rw [show Text.newlines ['\n'] = 1 from rfl] at hnext
    rw [hnext]
    exact (returns_distance (Nat.le_add_left _ _)).bind (returns_pure _)

/-- The number of the line at an offset, wherever it is in the line. -/
theorem number_eq {o : Nat} (hstart : Text.byteLength before ≤ o)
    (hstop : o ≤ Text.byteLength (before ++ rest.takeWhile (· ≠ '\n'))) :
    ((ofText (before ++ rest)).starts.takeWhile (· ≤ o)).length - 1 = Text.newlines before := by
  rw [Text.byteLength_append] at hstop
  have hline := congrArg Prod.fst (LineTable.lineAt_of_le hb rest hstart hstop)
  rw [starts_ofText, List.takeWhile_map, List.length_map]
  exact hline

end Line

/-! ## Positions of offsets -/

/-- `positionWithin` gives for a character boundary the position behind the part in front of it. -/
theorem returns_positionWithin (a b : Text) :
    Returns ((ofText (a ++ b)).positionWithin (Text.byteLength a)) (Text.endPosition a) := by
  obtain ⟨before, front, rfl, hb, hf, hp⟩ := Text.exists_lines_append a
  have hline := Text.takeWhile_append_of_not_mem hf b
  have hstart : Text.byteLength before ≤ Text.byteLength (before ++ front) := by
    rw [Text.byteLength_append]; omega
  have hstop : Text.byteLength (before ++ front) ≤
      Text.byteLength (before ++ (front ++ b).takeWhile (· ≠ '\n')) := by
    rw [hline, ← List.append_assoc, Text.byteLength_append (before ++ front)]; omega
  have hslice := returns_slice before front b
  rw [hp]
  unfold positionWithin
  rw [List.append_assoc before front b] at hslice ⊢
  simp only [number_eq hb hstart hstop]
  refine (returns_lineSpan hb (front ++ b)).bind ?_
  simp only [Nat.min_eq_left hstop, Nat.max_eq_left hstart]
  exact hslice.bind (returns_pure _)

/-- An offset inside a character has no position. -/
theorem run_positionWithin_inside {t : Text} {o : Nat} (hwithin : o ≤ Text.byteLength t)
    (ho : t.isBoundary o = false) (noted : List Place) : ((ofText t).positionWithin o).run noted = .error .inside := by
  obtain ⟨a, c, b, rfl, hfront, hback⟩ := Text.exists_char_around hwithin ho
  obtain ⟨before, front, rfl, hb, hf, -⟩ := Text.exists_lines_append a
  -- a line feed has no inside, so the character is one of the line
  have hc : '\n' ∉ front ++ [c] := by
    simp only [List.mem_append, List.mem_singleton, not_or]
    refine ⟨hf, ?_⟩
    rintro rfl
    rw [show Char.utf8Size '\n' = 1 from rfl] at hback
    omega
  have ht : before ++ front ++ c :: b = before ++ (front ++ [c] ++ b) := by simp
  have hline := Text.takeWhile_append_of_not_mem hc b
  have hstart : Text.byteLength before ≤ o := by
    rw [Text.byteLength_append] at hfront; omega
  have hstop : o ≤ Text.byteLength (before ++ (front ++ [c] ++ b).takeWhile (· ≠ '\n')) := by
    rw [hline]
    simp only [Text.byteLength_append, Text.byteLength_cons] at hback ⊢
    omega
  rw [ht] at hwithin ho ⊢
  unfold positionWithin
  simp only [number_eq hb hstart hstop]
  refine (returns_lineSpan hb (front ++ [c] ++ b)).run_bind_error (fun noted => ?_) noted
  simp only [Nat.min_eq_left hstop, Nat.max_eq_left hstart]
  rw [StateT.run_bind, show (ofText (before ++ (front ++ [c] ++ b))).text = before ++ (front ++ [c] ++ b) from rfl,
    run_slice_inside hstart hwithin ho]
  rfl

theorem returns_position (a b : Text) :
    Returns ((ofText (a ++ b)).position (Text.byteLength a)) (Text.endPosition a) := by
  have hwithin : Text.byteLength a ≤ Text.byteLength (a ++ b) := by
    rw [Text.byteLength_append]; omega
  unfold position
  refine (returns_note ⟨hwithin, Text.isBoundary_iff.2 ⟨a, b, rfl, rfl⟩⟩).bind ?_
  rw [show (ofText (a ++ b)).text = a ++ b from rfl, Nat.min_eq_left hwithin]
  exact returns_positionWithin a b

/-- `position` fails exactly for the offsets inside a character. -/
theorem position_fails_iff {t : Text} {o : Nat} :
    (∃ fault, ((ofText t).position o).run [] = .error fault) ↔ o ≤ Text.byteLength t ∧ t.isBoundary o = false := by
  have hrun : ((ofText t).position o).run [] =
      ((ofText t).positionWithin (min o (Text.byteLength t))).run [⟨t, o⟩] := rfl
  rw [hrun]
  constructor
  · rintro ⟨fault, hfault⟩
    by_contra hnot
    -- at a boundary, and at the end of the text, there is a position
    obtain ⟨a, b, rfl, ha⟩ : ∃ a b, t = a ++ b ∧ Text.byteLength a = min o (Text.byteLength t) := by
      rcases Nat.lt_or_ge (Text.byteLength t) o with hlt | hle
      · exact ⟨t, [], by simp, by omega⟩
      · rw [Nat.min_eq_left hle]
        exact Text.isBoundary_iff.1 (Bool.not_eq_false _ ▸ fun h => hnot ⟨hle, h⟩)
    obtain ⟨places, -, hok⟩ := returns_positionWithin a b
    rw [← ha, hok] at hfault
    cases hfault
  · rintro ⟨hwithin, ho⟩
    rw [Nat.min_eq_left hwithin]
    exact ⟨.inside, run_positionWithin_inside hwithin ho _⟩

/-! ## Offsets of positions -/

theorem returns_offset (t : Text) (p : Position) :
    Returns ((ofText t).offset p) ((LineTable.ofText t).offset? p) := by
  unfold offset
  rw [length_starts]
  split
  · rename_i hlt
    obtain ⟨before, rest, rfl, hb, hn⟩ := Text.exists_endsLine (Nat.le_of_lt_succ hlt)
    have hoff := LineTable.offset?_line hb rest p.character
    have hslice := returns_slice before (rest.takeWhile (· ≠ '\n')) (rest.dropWhile (· ≠ '\n'))
    rw [List.append_assoc, List.takeWhile_append_dropWhile] at hslice
    rw [hn] at hoff
    rw [hoff, ← hn]
    exact (returns_lineSpan hb rest).bind (hslice.bind (returns_pure _))
  · rename_i hge
    rw [LineTable.offset?_eq_none_iff.2 (Nat.lt_of_succ_le (Nat.le_of_not_lt hge))]
    exact returns_pure none

theorem returns_span (t : Text) (r : Range) : Returns ((ofText t).span r) ((LineTable.ofText t).span? r) :=
  (returns_offset t r.start).andThen fun _ _ => (returns_offset t r.stop).andThen fun _ _ => returns_pure _

end Index

/-! ## Changes -/

/-- `change` cuts the text at both ends of its range, and makes what `Change.apply` does. -/
theorem returns_change (t : Text) (c : Change) : Returns (change t c) (c.apply t) := by
  obtain ⟨range, n, new⟩ := c
  cases range with
  | none => exact returns_pure new
  | some r =>
    refine (Index.returns_span t r).bind ?_
    cases hspan : (LineTable.ofText t).span? r with
    | none =>
      rw [Change.apply_of_span?_none n new hspan]
      exact returns_pure t
    | some span =>
      obtain ⟨s, e⟩ := span
      obtain ⟨a, m, b, rfl, rfl, rfl⟩ := LineTable.exists_parts_of_span? hspan
      have hfront := returns_slice [] a (m ++ b)
      have hback := returns_slice (a ++ m) b []
      simp only [List.nil_append, List.append_nil, ← List.append_assoc, Text.byteLength_nil] at hfront hback
      rw [Text.byteLength_append a m] at hback
      rw [Change.apply_of_span? n new hspan]
      exact hfront.bind (hback.bind (returns_pure _))

theorem returns_changeAll (t : Text) (changes : List Change) :
    Returns (changeAll t changes) (Change.applyAll t changes) := by
  induction changes generalizing t with
  | nil => exact returns_pure t
  | cons c changes ih =>
    unfold changeAll
    rw [List.foldlM_cons]
    exact (returns_change t c).bind (ih (c.apply t))

end EmbeddedMarkup.Slicing
