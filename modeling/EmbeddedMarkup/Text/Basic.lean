/-
Texts and the two ways of measuring them: in UTF-8 bytes, the unit of every offset and region, and
in UTF-16 code units, the unit of the columns that editors send. Cutting a text is by byte offset
and fails inside a character.
-/

namespace EmbeddedMarkup

/-- A text is a sequence of Unicode scalar values. -/
abbrev Text := List Char

namespace Text

/-! ## Measures -/

/-- The number of bytes of `t` in UTF-8. -/
def byteLength : Text → Nat
  | [] => 0
  | c :: t => c.utf8Size + byteLength t

/-- The number of UTF-16 code units of one character: two beyond the basic plane. -/
def charUnits (c : Char) : Nat :=
  if c.val < 0x10000 then 1 else 2

/-- The number of UTF-16 code units of `t`. -/
def unitLength : Text → Nat
  | [] => 0
  | c :: t => charUnits c + unitLength t

/-- The number of line ends in `t`. -/
def newlines (t : Text) : Nat :=
  t.count '\n'

@[simp] theorem byteLength_append (a b : Text) :
    byteLength (a ++ b) = byteLength a + byteLength b := by
  induction a with
  | nil => simp [byteLength]
  | cons c a ih => simp only [List.cons_append, byteLength, ih]; omega

@[simp] theorem unitLength_append (a b : Text) :
    unitLength (a ++ b) = unitLength a + unitLength b := by
  induction a with
  | nil => simp [unitLength]
  | cons c a ih => simp only [List.cons_append, unitLength, ih]; omega

/-! ## Cutting at byte offsets -/

/-- The parts of `t` before and after byte offset `o`; `none` when `o` lies inside a character or
beyond the end. -/
def splitAt? : Text → Nat → Option (Text × Text)
  | t, 0 => some ([], t)
  | [], _ + 1 => none
  | c :: t, o + 1 =>
    if c.utf8Size ≤ o + 1 then
      (splitAt? t (o + 1 - c.utf8Size)).map fun parts => (c :: parts.1, parts.2)
    else
      none

/-- Whether `o` is a character boundary of `t`. -/
def isBoundary (t : Text) (o : Nat) : Bool :=
  (splitAt? t o).isSome

/-- The part of `t` from byte `s` to byte `e`; `none` for a backward span or a span with an end
that is no character boundary. -/
def slice? (t : Text) (s e : Nat) : Option Text :=
  if s ≤ e then do
    let (_, tail) ← splitAt? t s
    let (middle, _) ← splitAt? tail (e - s)
    return middle
  else
    none

/-- `t` with the bytes from `s` to `e` replaced by `new`, under the conditions of `slice?`. -/
def replace? (t : Text) (s e : Nat) (new : Text) : Option Text :=
  if s ≤ e then do
    let (head, tail) ← splitAt? t s
    let (_, rest) ← splitAt? tail (e - s)
    return head ++ new ++ rest
  else
    none

/-- A cut gives back the text, and the first part is as long as the offset says. -/
theorem splitAt?_eq_some {t : Text} {o : Nat} {a b : Text} (h : splitAt? t o = some (a, b)) :
    t = a ++ b ∧ byteLength a = o := by
  induction t generalizing o a b with
  | nil =>
    cases o with
    | zero =>
      simp only [splitAt?, Option.some.injEq, Prod.mk.injEq] at h
      simp [← h.1, ← h.2, byteLength]
    | succ n => simp [splitAt?] at h
  | cons c t ih =>
    cases o with
    | zero =>
      simp only [splitAt?, Option.some.injEq, Prod.mk.injEq] at h
      simp [← h.1, ← h.2, byteLength]
    | succ n =>
      simp only [splitAt?] at h
      split at h
      · rename_i hle
        obtain ⟨⟨x, y⟩, hxy, he⟩ := Option.map_eq_some_iff.1 h
        obtain ⟨rfl, hx⟩ := ih hxy
        simp only [Prod.mk.injEq] at he
        obtain ⟨rfl, rfl⟩ := he
        refine ⟨rfl, ?_⟩
        simp only [byteLength]; omega
      · simp at h

/-- A text can be cut behind any of its prefixes. -/
theorem splitAt?_append (a b : Text) : splitAt? (a ++ b) (byteLength a) = some (a, b) := by
  induction a with
  | nil => cases b <;> simp [byteLength, splitAt?]
  | cons c a ih =>
    have hpos : 0 < c.utf8Size := Char.utf8Size_pos c
    obtain ⟨n, hn⟩ : ∃ n, c.utf8Size + byteLength a = n + 1 :=
      ⟨c.utf8Size + byteLength a - 1, by omega⟩
    simp only [List.cons_append, byteLength, hn, splitAt?]
    rw [← hn, if_pos (Nat.le_add_right _ _), Nat.add_sub_cancel_left, ih]
    rfl

end Text

end EmbeddedMarkup
