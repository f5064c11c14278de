/-
The `plain` text of snippets, piece by piece: what `plainAt` makes of each kind of piece, and that text
without any snippet signs stands for itself.
-/
import EmbeddedMarkup.Snippet

namespace EmbeddedMarkup.Snippet

theorem plainAt_of_text {depth : Nat} {c c' : Char} {t rest : Text} (h : piece c t = (.text c', rest)) :
    plainAt depth (c :: t) = c' :: plainAt depth rest := by
  rw [plainAt.eq_def]
  simp only [h]

theorem plainAt_of_hole {depth : Nat} {c : Char} {t rest : Text} (h : piece c t = (.hole, rest)) :
    plainAt depth (c :: t) = plainAt depth rest := by
  rw [plainAt.eq_def]
  simp only [h]

theorem plainAt_of_opening {depth : Nat} {c : Char} {t rest : Text} (h : piece c t = (.opening, rest)) :
    plainAt depth (c :: t) = plainAt (depth + 1) rest := by
  rw [plainAt.eq_def]
  simp only [h]

theorem plainAt_succ_brace (depth : Nat) (t : Text) : plainAt (depth + 1) ('}' :: t) = plainAt depth t := by
  have h : piece '}' t = (.brace, t) := rfl
  rw [plainAt.eq_def]
  simp only [h]

theorem plainAt_zero_brace (t : Text) : plainAt 0 ('}' :: t) = '}' :: plainAt 0 t := by
  have h : piece '}' t = (.brace, t) := rfl
  rw [plainAt.eq_def]
  simp only [h]

/-- Whether no digit stands at the start of a text. -/
def BeginsNoDigit (t : Text) : Prop :=
  ∀ c, t.head? = some c → c.isDigit = false

/-- `dropWhile` leaves digits out as far as they go. -/
theorem dropWhile_digits {digits rest : Text} (hdigits : ∀ c ∈ digits, c.isDigit = true)
    (hrest : BeginsNoDigit rest) : (digits ++ rest).dropWhile Char.isDigit = rest := by
  rw [List.dropWhile_append_of_pos hdigits]
  cases rest with
  | nil => rfl
  | cons c rest => exact List.dropWhile_cons_of_neg (by simp [hrest c rfl])

theorem piece_of_digits {digits rest : Text} (hne : digits ≠ []) (hdigits : ∀ c ∈ digits, c.isDigit = true)
    (hrest : BeginsNoDigit rest) : piece '$' (digits ++ rest) = (.hole, rest) := by
  obtain ⟨digit, digits, rfl⟩ := List.exists_cons_of_ne_nil hne
  obtain ⟨hdigit, hdigits⟩ := List.forall_mem_cons.1 hdigits
  show dollar (digit :: (digits ++ rest)) = _
  rw [dollar, if_pos hdigit, dropWhile_digits hdigits hrest]

/-- Text without dollars and backslashes stands for itself. -/
theorem plainAt_zero_of_not_mem {t : Text} (h : ∀ c ∈ t, c ≠ '$' ∧ c ≠ '\\') : plainAt 0 t = t := by
  induction t with
  | nil => rw [plainAt]
  | cons c t ih =>
    obtain ⟨⟨hdollar, hback⟩, ht⟩ := List.forall_mem_cons.1 h
    by_cases hc : c = '}'
    · rw [hc, plainAt_zero_brace, ih ht]
    · have hpiece : piece c t = (.text c, t) := by
        unfold piece
        rw [if_neg hback, if_neg hc, if_neg hdollar]
      rw [plainAt_of_text hpiece, ih ht]

/-- `plain` leaves out a tab stop of one digit in front of such a text. -/
theorem plain_tabStop {digit : Char} (hdigit : digit.isDigit = true) {rest : Text}
    (hrest : ∀ c ∈ rest, c ≠ '$' ∧ c ≠ '\\') (hhead : BeginsNoDigit rest) :
    plain ('$' :: digit :: rest) = rest := by
  have hpiece : piece '$' (digit :: rest) = (.hole, rest) :=
    piece_of_digits (List.cons_ne_nil digit []) (by simpa using hdigit) hhead
  rw [plain, plainAt_of_hole hpiece, plainAt_zero_of_not_mem hrest]

end EmbeddedMarkup.Snippet
