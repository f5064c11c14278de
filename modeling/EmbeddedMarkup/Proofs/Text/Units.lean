/-
Texts as editors hold them: `Units` are sequences of UTF-16 code units, in which a position is an offset of units
behind the start of its line. An editor never cuts between the halves of a surrogate pair, so that
each of its cuts is one of the text, and what `edit?` puts in place of a range is what `Change.apply`
makes of the text, although that is cut by bytes.
-/
import EmbeddedMarkup.Proofs.Text.Positions

namespace EmbeddedMarkup

/-- A text in UTF-16 code units. -/
abbrev Units := List UInt16

namespace Units

/-! ## Code units -/

/-- The unit that ends a line. -/
def newline : UInt16 := 0x0A

/-- Whether a unit is the first half of a surrogate pair. -/
def isHigh (u : UInt16) : Bool :=
  0xD800 ≤ u.toNat && u.toNat < 0xDC00

/-- Whether a unit is the second half of a surrogate pair. -/
def isLow (u : UInt16) : Bool :=
  0xDC00 ≤ u.toNat && u.toNat < 0xE000

/-- The units of a character: two beyond the basic plane. -/
def ofChar (c : Char) : Units :=
  if c.toNat < 0x10000 then
    [UInt16.ofNat c.toNat]
  else
    [UInt16.ofNat (0xD800 + (c.toNat - 0x10000) / 0x400), UInt16.ofNat (0xDC00 + (c.toNat - 0x10000) % 0x400)]

/-- The units of a text. -/
def ofText (t : Text) : Units :=
  t.flatMap ofChar

/-! ## Editing -/

/-- The offset of the first unit of line `n`; there is none when the line does not exist. -/
def lineStart? : Units → Nat → Option Nat
  | _, 0 => some 0
  | [], _ + 1 => none
  | u :: us, n + 1 => (lineStart? us (if u = newline then n else n + 1)).map (· + 1)

/-- The number of units from offset `start` to the end of the line. -/
def lineLength (us : Units) (start : Nat) : Nat :=
  ((us.drop start).takeWhile (· ≠ newline)).length

/-- Whether offset `o` lies between the halves of a surrogate pair. -/
def splitsPair (us : Units) (o : Nat) : Bool :=
  (us.take o).getLast?.any isHigh && (us.drop o).head?.any isLow

/-- The offset of an exact position: one on a line that exists, not beyond its end and not inside of
a surrogate pair. -/
def offset? (us : Units) (p : Position) : Option Nat := do
  let start ← us.lineStart? p.line
  if p.character ≤ us.lineLength start ∧ us.splitsPair (start + p.character) = false then
    return start + p.character
  else
    none

/-- The units after one change: those between the two ends of its range are replaced, or all of them
when there is no range. There is none for a range that is backward or has an end that is no exact
position. -/
def edit? (us : Units) (c : Change) : Option Units :=
  match c.range with
  | none => some (ofText c.text)
  | some r => do
    let s ← us.offset? r.start
    let e ← us.offset? r.stop
    if s ≤ e then return us.take s ++ ofText c.text ++ us.drop e else none

/-- The units after a list of changes, by `edit?`, each with a range of the units left by the one before. -/
def editAll? (us : Units) (changes : List Change) : Option Units :=
  changes.foldlM edit? us

/-! ## The units of a text -/

@[simp] theorem ofText_nil : ofText [] = [] := rfl

@[simp] theorem ofText_cons (c : Char) (t : Text) : ofText (c :: t) = ofChar c ++ ofText t := rfl

@[simp] theorem ofText_append (a b : Text) : ofText (a ++ b) = ofText a ++ ofText b :=
  List.flatMap_append

theorem length_ofChar (c : Char) : (ofChar c).length = Text.charUnits c := by
  have hiff : c.toNat < 0x10000 ↔ c.val < 0x10000 := by
    rw [UInt32.lt_iff_toNat_lt]; rfl
  unfold ofChar Text.charUnits
  by_cases h : c.toNat < 0x10000
  · rw [if_pos h, if_pos (hiff.1 h)]; rfl
  · rw [if_neg h, if_neg (mt hiff.2 h)]; rfl

@[simp] theorem length_ofText (t : Text) : (ofText t).length = Text.unitLength t := by
  induction t with
  | nil => rfl
  | cons c t ih => rw [ofText_cons, List.length_append, length_ofChar, ih, Text.unitLength_cons]

/-- A character is one unit that is no half of a pair, or the two halves of one. -/
theorem ofChar_cases (c : Char) :
    (∃ u, ofChar c = [u] ∧ isHigh u = false ∧ isLow u = false ∧ (u = newline ↔ c = '\n')) ∨
      ∃ h l, ofChar c = [h, l] ∧ isHigh h = true ∧ isLow l = true ∧ h ≠ newline ∧ l ≠ newline ∧ c ≠ '\n' := by
  have hv : c.toNat < 0xD800 ∨ (0xDFFF < c.toNat ∧ c.toNat < 0x110000) := c.valid
  unfold ofChar
  by_cases h : c.toNat < 0x10000
  · left
    refine ⟨UInt16.ofNat c.toNat, if_pos h, ?_, ?_, ?_⟩
    · simp only [isHigh, UInt16.toNat_ofNat', Bool.and_eq_false_iff, decide_eq_false_iff_not]; omega
    · simp only [isLow, UInt16.toNat_ofNat', Bool.and_eq_false_iff, decide_eq_false_iff_not]; omega
    · rw [← UInt16.toNat_inj, ← Char.toNat_inj, UInt16.toNat_ofNat', newline]
      rw [Nat.mod_eq_of_lt h]; rfl
  · right
    refine ⟨_, _, if_neg h, ?_, ?_, ?_, ?_, ?_⟩
    · simp only [isHigh, UInt16.toNat_ofNat', Bool.and_eq_true, decide_eq_true_eq]; omega
    · simp only [isLow, UInt16.toNat_ofNat', Bool.and_eq_true, decide_eq_true_eq]; omega
    · rw [Ne, ← UInt16.toNat_inj, UInt16.toNat_ofNat', newline]; simp; omega
    · rw [Ne, ← UInt16.toNat_inj, UInt16.toNat_ofNat', newline]; simp; omega
    · rintro rfl; exact h (by decide)

/-! ## Cuts -/

/-- A cut of the units that is not inside of a pair, by `splitsPair`, is a cut of the text. -/
theorem exists_cut {t : Text} {x y : Units} (h : ofText t = x ++ y)
    (hp : (x.getLast?.any isHigh && y.head?.any isLow) = false) :
    ∃ a b, t = a ++ b ∧ ofText a = x ∧ ofText b = y := by
  induction t generalizing x with
  | nil =>
    obtain ⟨rfl, rfl⟩ := List.append_eq_nil_iff.1 h.symm
    exact ⟨[], [], rfl, rfl, rfl⟩
  | cons c t ih =>
    cases x with
    | nil => exact ⟨[], c :: t, rfl, rfl, h⟩
    | cons u x =>
      -- The condition on the cut looks at the last unit only, so that it holds of the rest.
      have htail : ∀ x', x = x' ∨ (∃ v, x = v :: x') → (x'.getLast?.any isHigh && y.head?.any isLow) = false := by
        intro x' hx'
        cases x' with
        | nil => rfl
        | cons w x' =>
          rcases hx' with rfl | ⟨v, rfl⟩
          · rwa [List.getLast?_cons_cons] at hp
          · rwa [List.getLast?_cons_cons, List.getLast?_cons_cons] at hp
      rw [ofText_cons] at h
      rcases ofChar_cases c with ⟨u', hc, -⟩ | ⟨hi, lo, hc, hhi, hlo, -⟩
      · rw [hc, List.singleton_append, List.cons_append, List.cons.injEq] at h
        obtain ⟨a, b, rfl, ha, hb⟩ := ih h.2 (htail x (.inl rfl))
        exact ⟨c :: a, b, rfl, by rw [ofText_cons, hc, ha, h.1]; rfl, hb⟩
      · cases x with
        | nil =>
          rw [hc] at h
          simp only [List.cons_append, List.nil_append, List.cons.injEq] at h
          obtain ⟨rfl, rfl⟩ := h
          simp [hhi, hlo] at hp
        | cons v x =>
          rw [hc] at h
          simp only [List.cons_append, List.nil_append, List.cons.injEq] at h
          obtain ⟨rfl, rfl, h⟩ := h
          obtain ⟨a, b, rfl, ha, hb⟩ := ih h (htail x (.inr ⟨_, rfl⟩))
          exact ⟨c :: a, b, rfl, by rw [ofText_cons, hc, ha]; rfl, hb⟩

theorem count_newline_ofText (t : Text) : (ofText t).count newline = Text.newlines t := by
  induction t with
  | nil => rfl
  | cons c t ih =>
    rw [ofText_cons, List.count_append, ih, Text.newlines_cons, Nat.add_comm]
    rcases ofChar_cases c with ⟨u, hc, -, -, hn⟩ | ⟨hi, lo, hc, -, -, hhi, hlo, hn⟩
    · simp only [hc, List.count_cons, List.count_nil, beq_iff_eq, hn, Nat.zero_add]
    · simp only [hc, List.count_cons, List.count_nil, beq_iff_eq, if_neg hhi, if_neg hlo, if_neg hn]

theorem newline_mem_ofText {t : Text} : newline ∈ ofText t ↔ '\n' ∈ t := by
  rw [← List.count_pos_iff, count_newline_ofText, Text.newlines, List.count_pos_iff]

/-- The units of a text end a line exactly when the text does. -/
theorem endsLine_of_ofText {t : Text} (h : ofText t = [] ∨ (ofText t).getLast? = some newline) : Text.EndsLine t := by
  rcases List.eq_nil_or_concat t with rfl | ⟨t, c, rfl⟩
  · exact Text.endsLine_nil
  · right
    rw [List.concat_eq_append, ofText_append, ofText_cons, ofText_nil, List.append_nil] at h
    rw [List.concat_eq_append, List.getLast?_append, List.getLast?_singleton, Option.some_or, Option.some.injEq]
    rcases ofChar_cases c with ⟨u, hc, -, -, hn⟩ | ⟨hi, lo, hc, -, -, -, hlo, -⟩
    · simpa [hc, hn] using h
    · simp [hc, hlo] at h

/-! ## Exact positions -/

/-- The units in front of a line hold as many line ends as its number says, the last one at the end. -/
theorem lineStart?_eq_some {us : Units} {n k : Nat} (h : us.lineStart? n = some k) :
    k ≤ us.length ∧ (us.take k).count newline = n ∧ (us.take k = [] ∨ (us.take k).getLast? = some newline) := by
  induction us generalizing n k with
  | nil =>
    cases n with
    | zero => cases h; simp
    | succ n => cases h
  | cons u us ih =>
    cases n with
    | zero => cases h; simp
    | succ n =>
      rw [lineStart?] at h
      obtain ⟨k, hk, rfl⟩ := Option.map_eq_some_iff.1 h
      obtain ⟨hle, hcount, hlast⟩ := ih hk
      refine ⟨Nat.succ_le_succ hle, ?_, .inr ?_⟩
      · rw [List.take_succ_cons, List.count_cons, hcount]
        by_cases hu : u = newline
        · simp [hu]
        · simp [hu]
      · rw [List.take_succ_cons]
        rcases hlast with hnil | hlast
        · rw [hnil] at hcount ⊢
          by_cases hu : u = newline
          · rw [hu]; rfl
          · simp [hu] at hcount
        · rw [List.getLast?_cons, hlast]; rfl

/-- `offset?` of an exact position is a cut of the text: behind a part that ends a line, and a part
of the line after it. -/
theorem exists_of_offset? {t : Text} {p : Position} {o : Nat} (h : (ofText t).offset? p = some o) :
    ∃ before front rest, t = before ++ front ++ rest ∧ Text.EndsLine before ∧ '\n' ∉ front ∧
      p = ⟨Text.newlines before, Text.unitLength front⟩ ∧ o = Text.unitLength (before ++ front) := by
  unfold offset? at h
  obtain ⟨start, hstart, h⟩ := Option.bind_eq_some_iff.1 h
  split at h
  · rename_i hexact
    obtain ⟨hcol, hpair⟩ := hexact
    cases h
    obtain ⟨hle, hcount, hlast⟩ := lineStart?_eq_some hstart
    obtain ⟨a, rest, ht, ha, -⟩ := exists_cut (List.take_append_drop (start + p.character) (ofText t)).symm hpair
    -- The line begins at a cut too: in front of it stands a line end, which is half of nothing.
    have hsplit : ofText a = (ofText t).take start ++ ((ofText t).drop start).take p.character := by
      rw [ha, List.take_add]
    have hfree : (((ofText t).take start).getLast?.any isHigh &&
        (((ofText t).drop start).take p.character).head?.any isLow) = false := by
      rcases hlast with hl | hl
      · rw [hl]; rfl
      · rw [hl]; rfl
    obtain ⟨before, front, ha', hbefore, hfront⟩ := exists_cut hsplit hfree
    have hfl : (ofText front).length = p.character := by
      rw [hfront, List.length_take, List.length_drop]
      have := (List.takeWhile_prefix (· ≠ newline) (l := (ofText t).drop start)).length_le
      unfold lineLength at hcol
      rw [List.length_drop] at this
      omega
    refine ⟨before, front, rest, by rw [ht, ha'], endsLine_of_ofText (by rwa [hbefore]), ?_, ?_, ?_⟩
    · rw [← newline_mem_ofText, hfront]
      intro hm
      have hpre : ((ofText t).drop start).take p.character <+: ((ofText t).drop start).takeWhile (· ≠ newline) :=
        List.prefix_of_prefix_length_le (List.take_prefix _ _) (List.takeWhile_prefix _)
          (by rw [← hfront, hfl]; exact hcol)
      have := List.mem_takeWhile_imp (hpre.subset hm)
      simp at this
    · rw [← count_newline_ofText, hbefore, hcount, ← length_ofText, hfl]
    · rw [← length_ofText, ofText_append, List.length_append, hbefore, hfl, List.length_take, Nat.min_eq_left hle]
  · cases h

/-- `offset?` in units and `LineTable.offset?` in bytes are at the same cut. -/
theorem exists_cut_of_offset? {t : Text} {p : Position} {o : Nat} (h : (ofText t).offset? p = some o) :
    ∃ a b, t = a ++ b ∧ o = Text.unitLength a ∧ (LineTable.ofText t).offset? p = some (Text.byteLength a) := by
  obtain ⟨before, front, rest, rfl, hb, hf, rfl, rfl⟩ := exists_of_offset? h
  exact ⟨before ++ front, rest, rfl, rfl, LineTable.offset?_append hb hf rest⟩

/-! ## Changes -/

/-- What `edit?` makes of the units is what `apply` makes of the text. -/
theorem edit?_ofText {t : Text} {c : Change} {us : Units} (h : (ofText t).edit? c = some us) :
    us = ofText (c.apply t) := by
  obtain ⟨range, rangeLength, new⟩ := c
  cases range with
  | none => cases h; rfl
  | some r =>
    obtain ⟨s, hs, h⟩ := Option.bind_eq_some_iff.1 h
    obtain ⟨e, he, h⟩ := Option.bind_eq_some_iff.1 h
    split at h
    · rename_i hle
      cases h
      obtain ⟨a, b, rfl, rfl, hs'⟩ := exists_cut_of_offset? hs
      obtain ⟨a', b', ht, rfl, he'⟩ := exists_cut_of_offset? he
      obtain ⟨m, rfl, rfl⟩ := Text.exists_middle Text.unitLength_append
        (fun c t => Nat.lt_of_lt_of_le (Text.charUnits_pos c) (Nat.le_add_right _ _)) ht hle
      rw [← List.append_assoc] at hs' he' ⊢
      have hspan : (LineTable.ofText (a ++ m ++ b')).span? r =
          some (Text.byteLength a, Text.byteLength a + Text.byteLength m) := by
        unfold LineTable.span?
        rw [hs', he', Text.byteLength_append]
        simp
      have htake : (ofText (a ++ m ++ b')).take (Text.unitLength a) = ofText a := by
        rw [List.append_assoc, ofText_append, ← length_ofText, List.take_left]
      have hdrop : (ofText (a ++ m ++ b')).drop (Text.unitLength (a ++ m)) = ofText b' := by
        rw [ofText_append, ← length_ofText, List.drop_left]
      rw [Change.apply_of_span? rangeLength new hspan, htake, hdrop, ofText_append, ofText_append]
    · cases h

theorem editAll?_ofText {t : Text} {changes : List Change} {us : Units}
    (h : (ofText t).editAll? changes = some us) : us = ofText (Change.applyAll t changes) := by
  induction changes generalizing t with
  | nil => cases h; rfl
  | cons c changes ih =>
    unfold editAll? at h
    rw [List.foldlM_cons] at h
    obtain ⟨us', h1, h2⟩ := Option.bind_eq_some_iff.1 h
    rw [edit?_ofText h1] at h2
    exact ih h2

end Units

end EmbeddedMarkup
