/-
Lists of rows with a key, of which each key is held at most once: the form that open documents, put
off tasks and documents at a server have in common. `put` drops the row with a key and appends the new
one, `erase` only drops it.
-/
import Mathlib.Data.List.Nodup

namespace EmbeddedMarkup.Keyed

variable {α κ : Type} [DecidableEq κ] (key : α → κ)

/-- After `erase` everything but the row of the key is found as before. -/
theorem find?_erase (l : List α) (k k' : κ) :
    (l.filter fun x => key x ≠ k).find? (fun x => key x = k') =
      if k' = k then none else l.find? fun x => key x = k' := by
  rw [List.find?_filter]
  split
  · rename_i h
    rw [List.find?_eq_none]
    intro x _
    simp [h]
  · rename_i h
    congr 1
    funext x
    by_cases hx : key x = k'
    · simp [hx, h]
    · simp [hx]

/-- After `put` the row is found, and so is everything else as before. -/
theorem find?_put (l : List α) (x : α) (k : κ) :
    ((l.filter fun y => key y ≠ key x) ++ [x]).find? (fun y => key y = k) =
      if k = key x then some x else l.find? fun y => key y = k := by
  rw [List.find?_append, find?_erase]
  by_cases h : k = key x
  · simp [h]
  · have hx : ¬ key x = k := fun h' => h h'.symm
    simp [h, hx]

theorem nodup_erase {l : List α} (h : (l.map key).Nodup) (k : κ) : ((l.filter fun x => key x ≠ k).map key).Nodup :=
  h.sublist (List.Sublist.map _ List.filter_sublist)

/-- `put` keeps the keys apart. -/
theorem nodup_put {l : List α} (h : (l.map key).Nodup) (x : α) :
    (((l.filter fun y => key y ≠ key x) ++ [x]).map key).Nodup := by
  rw [List.map_append, List.nodup_append]
  refine ⟨nodup_erase key h _, by simp, ?_⟩
  rintro _ ha _ hb rfl
  obtain ⟨y, hy, hk⟩ := List.mem_map.1 ha
  have hne : key y ≠ key x := by simpa using (List.mem_filter.1 hy).2
  rw [List.map_singleton, List.mem_singleton] at hb
  exact hne (hk.trans hb)

/-- Where keys are apart, what is found under a key is the row that has it. -/
theorem find?_eq_some_iff {l : List α} (h : (l.map key).Nodup) {k : κ} {x : α} :
    l.find? (fun y => key y = k) = some x ↔ x ∈ l ∧ key x = k := by
  constructor
  · intro hf
    exact ⟨List.mem_of_find?_eq_some hf, by simpa using List.find?_some hf⟩
  · rintro ⟨hx, rfl⟩
    cases hf : l.find? (fun y => key y = key x) with
    | none =>
      rw [List.find?_eq_none] at hf
      exact absurd (decide_eq_true rfl) (hf x hx)
    | some y =>
      have hk : key y = key x := by simpa using List.find?_some hf
      rw [List.inj_on_of_nodup_map h (List.mem_of_find?_eq_some hf) hx hk]

omit [DecidableEq κ] in
/-- Where keys are apart, rows that share a key are one row. -/
theorem length_filter_le_one {l : List α} (h : (l.map key).Nodup) {k : κ} {p : α → Bool}
    (hp : ∀ x ∈ l, p x = true → key x = k) : (l.filter p).length ≤ 1 := by
  have hsame : (l.filter p).map key = List.replicate (l.filter p).length k := by
    refine List.eq_replicate_iff.2 ⟨List.length_map .., fun k' hk' => ?_⟩
    obtain ⟨x, hx, rfl⟩ := List.mem_map.1 hk'
    obtain ⟨hx, hpx⟩ := List.mem_filter.1 hx
    exact hp x hx hpx
  have hnodup : ((l.filter p).map key).Nodup := h.sublist (List.filter_sublist.map key)
  rwa [hsame, List.nodup_replicate] at hnodup

end EmbeddedMarkup.Keyed
