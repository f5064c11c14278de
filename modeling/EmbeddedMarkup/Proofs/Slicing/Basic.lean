/-
Computations that cut texts by byte offsets. In `Slicing` nothing is looked up or cut out without a check:
what runs backward, reaches beyond the end or cuts a character in two is a `Fault`, and a fault ends the
computation. Each `Place` whose position is asked for is noted, whether that can be answered or not. A
computation `Returns` a value if it comes to its end without a fault and has noted character boundaries
only; this is shown for one step after the other, from `slice` and `note` on.
-/
import EmbeddedMarkup.Proofs.Text.Cuts

namespace EmbeddedMarkup

/-- Why something cannot be taken out. -/
inductive Fault where
  /-- It would end before it begins. -/
  | backward
  /-- It would reach beyond the end. -/
  | beyond
  /-- One of its ends is inside a character. -/
  | inside
  deriving DecidableEq, Repr

/-- An offset in a text whose position is asked for. -/
structure Place where
  text : Text
  offset : Nat

/-- Whether the offset is a character boundary, not beyond the end of the text. -/
def Place.IsBoundary (p : Place) : Prop :=
  p.offset ≤ Text.byteLength p.text ∧ p.text.isBoundary p.offset = true

/-- A computation that cuts texts, with the places noted so far. -/
abbrev Slicing (α : Type) :=
  StateT (List Place) (Except Fault) α

namespace Slicing

/-! ## Checked steps -/

/-- Notes a place. -/
def note (p : Place) : Slicing Unit :=
  modify (· ++ [p])

/-- The number of bytes from offset `s` to offset `e`. -/
def distance (s e : Nat) : Slicing Nat :=
  if s ≤ e then return e - s else throw .backward

/-- The entry of a list with index `n`. -/
def entry {α : Type} (xs : List α) (n : Nat) : Slicing α :=
  match xs[n]? with
  | some x => return x
  | none => throw .beyond

/-- The part of a list from index `n` on. -/
def suffix {α : Type} (xs : List α) (n : Nat) : Slicing (List α) :=
  if n ≤ xs.length then return xs.drop n else throw .beyond

/-- The part of a text from byte `s` to byte `e`. -/
def slice (t : Text) (s e : Nat) : Slicing Text :=
  if e < s then
    throw .backward
  else if Text.byteLength t < e then
    throw .beyond
  else
    match Text.slice? t s e with
    | some m => return m
    | none => throw .inside

/-- Goes on with what was found, if anything was. -/
def andThen {α β : Type} (m : Slicing (Option α)) (f : α → Slicing (Option β)) : Slicing (Option β) := do
  match ← m with
  | none => return none
  | some a => f a

/-! ## Computations without a fault -/

section Returns

variable {α β : Type} {m : Slicing α} {f : α → Slicing β} {a : α} {b : β}

/-- Whether a computation comes to its end with `a` and has noted character boundaries only. -/
def Returns (m : Slicing α) (a : α) : Prop :=
  ∃ places : List Place, (∀ p ∈ places, p.IsBoundary) ∧ ∀ noted, m.run noted = .ok (a, noted ++ places)

theorem returns_pure (a : α) : Returns (pure a) a :=
  ⟨[], by simp, fun noted => by rw [List.append_nil]; rfl⟩

theorem Returns.bind (hm : Returns m a) (hf : Returns (f a) b) : Returns (m >>= f) b := by
  obtain ⟨places, hplaces, hm⟩ := hm
  obtain ⟨places', hplaces', hf⟩ := hf
  refine ⟨places ++ places', ?_, fun noted => ?_⟩
  · intro p hp
    exact (List.mem_append.1 hp).elim (hplaces p) (hplaces' p)
  · rw [StateT.run_bind, hm, ← List.append_assoc, ← hf]
    rfl

theorem Returns.andThen {m : Slicing (Option α)} {f : α → Slicing (Option β)} {found : Option α}
    {g : α → Option β} (hm : Returns m found) (hf : ∀ a, found = some a → Returns (f a) (g a)) :
    Returns (andThen m f) (found.bind g) := by
  refine hm.bind ?_
  cases found with
  | none => exact returns_pure none
  | some a => exact hf a rfl

/-- What fails behind a computation that `Returns` fails as a whole. -/
theorem Returns.run_bind_error {fault : Fault} (hm : Returns m a) (hf : ∀ noted, (f a).run noted = .error fault)
    (noted : List Place) : (m >>= f).run noted = .error fault := by
  obtain ⟨places, -, hm⟩ := hm
  rw [StateT.run_bind, hm]
  exact hf _

theorem returns_note {p : Place} (h : p.IsBoundary) : Returns (note p) () :=
  ⟨[p], by simpa using h, fun _ => rfl⟩

theorem returns_distance {s e : Nat} (h : s ≤ e) : Returns (distance s e) (e - s) := by
  unfold distance
  rw [if_pos h]
  exact returns_pure _

theorem returns_entry {xs : List α} {n : Nat} (h : xs[n]? = some a) : Returns (entry xs n) a := by
  unfold entry
  rw [h]
  exact returns_pure a

theorem returns_suffix {xs : List α} {n : Nat} (h : n ≤ xs.length) : Returns (suffix xs n) (xs.drop n) := by
  unfold suffix
  rw [if_pos h]
  exact returns_pure _

/-- `slice` cuts out what stands between two cuts. -/
theorem returns_slice (a m b : Text) :
    Returns (slice (a ++ m ++ b) (Text.byteLength a) (Text.byteLength (a ++ m))) m := by
  have hforward : ¬ Text.byteLength (a ++ m) < Text.byteLength a := by
    rw [Text.byteLength_append]; omega
  have hwithin : ¬ Text.byteLength (a ++ m ++ b) < Text.byteLength (a ++ m) := by
    rw [Text.byteLength_append (a ++ m)]; omega
  unfold slice
  rw [if_neg hforward, if_neg hwithin, Text.slice?_append]
  exact returns_pure m

/-- What ends inside a character is the fault `inside`. -/
theorem run_slice_inside {t : Text} {s e : Nat} (hforward : s ≤ e) (hwithin : e ≤ Text.byteLength t)
    (he : t.isBoundary e = false) (noted : List Place) : (slice t s e).run noted = .error .inside := by
  have hnone : Text.slice? t s e = none := by
    refine Option.eq_none_iff_forall_ne_some.2 fun m hm => ?_
    obtain ⟨a, b, rfl, -, rfl⟩ := Text.slice?_eq_some hm
    rw [Text.isBoundary_iff.2 ⟨a ++ m, b, rfl, rfl⟩] at he
    cases he
  unfold slice
  rw [if_neg (Nat.not_lt.2 hforward), if_neg (Nat.not_lt.2 hwithin), hnone]
  rfl

end Returns

end Slicing

end EmbeddedMarkup
