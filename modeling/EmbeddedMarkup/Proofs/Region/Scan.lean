/-
What `scan` finds: the `calls` of a text are all the places where the name, any blanks and an opener
stand, whatever surrounds them; a call is balanced when the walk behind its opener brings the `depth`
to zero, at its `closer?`. The regions of a text are exactly those of its balanced calls, taken in
order, less the calls that stand inside of a region taken before. So regions are ordered, apart from each other
and each between an opener and the closer that matches it, and no balanced call is missed for an
unbalanced one before or around it.
-/
import EmbeddedMarkup.Proofs.Text.Cuts
import EmbeddedMarkup.Region
import Mathlib.Data.List.Infix
import Mathlib.Data.List.TakeWhile

namespace EmbeddedMarkup

namespace Region

/-! ## Calls -/

/-- The name in front of every call. -/
def callName : Text := ['U', 'I', '!']

/-- A call as far as its opener: the offset of its `name`, the offset `start` just behind the opener, and the
text behind that. -/
structure Call where
  name : Nat
  delimiter : Delimiter
  start : Nat
  rest : Text
  deriving DecidableEq

/-- Whether a call stands in a text: its name, blanks and its opener, in front of the rest. -/
def Call.StandsIn (c : Call) (t : Text) : Prop :=
  ∃ before blanks : Text, t = before ++ callName ++ blanks ++ c.delimiter.opener :: c.rest ∧
    (∀ b ∈ blanks, Text.isBlank b = true) ∧ c.name = Text.byteLength before ∧
    c.start = Text.byteLength (before ++ callName ++ blanks ++ [c.delimiter.opener])

/-- The calls of the part `t` of a text that begins at byte offset `pos`, one for each place. -/
def callsFrom (pos : Nat) : Text → List Call
  | [] => []
  | c :: t =>
    ((trigger? (c :: t)).map fun g => ⟨pos, g.delimiter, pos + g.length, g.rest⟩).toList ++
      callsFrom (pos + c.utf8Size) t

/-- The calls of a text. -/
def calls (t : Text) : List Call :=
  callsFrom 0 t

/-- The depth after a walk over `t` from just behind an opener. -/
def depth (d : Delimiter) (t : Text) : Int :=
  1 + t.count d.opener - t.count d.closer

/-- The offset of the closer with which the walk from behind the opener of a call first brings the
depth to zero; there is none for an unbalanced call. -/
def Call.closer? (c : Call) : Option Nat :=
  (c.rest.inits.find? fun walked => depth c.delimiter walked = 0).map fun walked =>
    c.start + Text.byteLength walked.dropLast

/-- Whether offset `o` is inside of the span of `r`. -/
def covers (r : Region) (o : Nat) : Bool :=
  r.start ≤ o && o < r.stop

/-- Adds the region of a call to those taken before, if the call is balanced and its name is not
inside of one of them. -/
def take (regions : List Region) (c : Call) : List Region :=
  match c.closer? with
  | none => regions
  | some stop => if regions.any (covers · c.name) then regions else regions ++ [⟨c.start, stop⟩]

end Region

/-! ## Delimiters -/

namespace Delimiter

theorem ofOpener?_eq_some_iff {c : Char} {d : Delimiter} : ofOpener? c = some d ↔ c = d.opener := by
  unfold ofOpener?
  constructor
  · intro h
    split_ifs at h with h1 h2 h3 <;> cases h <;> assumption
  · rintro rfl
    cases d <;> rfl

theorem opener_ne_closer (d : Delimiter) : d.opener ≠ d.closer := by
  cases d <;> decide

theorem isBlank_opener (d : Delimiter) : Text.isBlank d.opener = false := by
  cases d <;> decide

@[simp] theorem utf8Size_opener (d : Delimiter) : d.opener.utf8Size = 1 := by
  cases d <;> decide

@[simp] theorem utf8Size_closer (d : Delimiter) : d.closer.utf8Size = 1 := by
  cases d <;> decide

theorem opener_ne_U (d : Delimiter) : d.opener ≠ 'U' := by
  cases d <;> decide

theorem closer_ne_U (d : Delimiter) : d.closer ≠ 'U' := by
  cases d <;> decide

end Delimiter

namespace Region

/-! ## Triggers -/

theorem dropWhile_blanks {blanks : Text} (hb : ∀ b ∈ blanks, Text.isBlank b = true) (d : Delimiter) (rest : Text) :
    (blanks ++ d.opener :: rest).dropWhile Text.isBlank = d.opener :: rest ∧
      (blanks ++ d.opener :: rest).takeWhile Text.isBlank = blanks := by
  have ho : ¬ Text.isBlank d.opener = true := by simp [d.isBlank_opener]
  rw [List.dropWhile_append_of_pos hb, List.takeWhile_append_of_pos hb, List.dropWhile_cons_of_neg ho,
    List.takeWhile_cons_of_neg ho]
  simp

/-- `trigger?` finds the name, blanks and an opener at the very start. -/
theorem trigger?_eq_some_iff {t : Text} {g : Trigger} :
    trigger? t = some g ↔ ∃ blanks : Text, t = callName ++ blanks ++ g.delimiter.opener :: g.rest ∧
      (∀ b ∈ blanks, Text.isBlank b = true) ∧
      g.length = Text.byteLength (callName ++ blanks ++ [g.delimiter.opener]) := by
  constructor
  · intro h
    unfold trigger? at h
    split at h
    · rename_i t
      split at h
      · cases h
      · rename_i c rest hd
        obtain ⟨d, hc, rfl⟩ := Option.map_eq_some_iff.1 h
        rw [Delimiter.ofOpener?_eq_some_iff] at hc
        subst hc
        refine ⟨t.takeWhile Text.isBlank, ?_, fun b hb => List.mem_takeWhile_imp hb, ?_⟩
        · rw [List.append_assoc, ← hd, List.takeWhile_append_dropWhile]; rfl
        · have h3 : Text.byteLength callName = 3 := by decide
          simp only [Text.byteLength_append, h3, Text.byteLength_cons, Delimiter.utf8Size_opener, Text.byteLength_nil]
    · cases h
  · rintro ⟨blanks, rfl, hb, hl⟩
    obtain ⟨h1, h2⟩ := dropWhile_blanks hb g.delimiter g.rest
    have h3 : Text.byteLength callName = 3 := by decide
    unfold callName trigger?
    simp only [List.cons_append, List.nil_append]
    rw [h1, h2]
    simp only [Delimiter.ofOpener?_eq_some_iff.2 rfl, Option.map_some, Option.some.injEq]
    cases g
    simp only [Text.byteLength_append, h3, Text.byteLength_cons, Delimiter.utf8Size_opener, Text.byteLength_nil] at hl
    simp only [Trigger.mk.injEq, true_and, and_true]
    omega

theorem trigger?_cons_of_ne {c : Char} (hc : c ≠ 'U') (t : Text) : trigger? (c :: t) = none := by
  unfold trigger?
  split
  · rename_i heq
    cases heq
    exact absurd rfl hc
  · rfl

/-! ## The walk to the closer -/

@[simp] theorem depth_nil (d : Delimiter) : depth d [] = 1 := by
  simp [depth]

theorem depth_cons (d : Delimiter) (c : Char) (t : Text) :
    depth d (c :: t) =
      if c = d.closer then depth d t - 1 else if c = d.opener then depth d t + 1 else depth d t := by
  unfold depth
  simp only [List.count_cons, beq_iff_eq]
  split_ifs with h1 h2 h2
  · exact absurd (h1.symm.trans h2) d.opener_ne_closer
  all_goals push_cast; omega

/-- What `close?` reads is what stands in front of the closer. -/
theorem close?_eq_some {d : Delimiter} {k n m : Nat} {t rest : Text} (h : close? d k n t = some (m, rest)) :
    ∃ inner, t = inner ++ d.closer :: rest ∧ m = n + Text.byteLength inner := by
  induction t generalizing k n with
  | nil => cases h
  | cons c t ih =>
    have step : ∀ k', close? d k' (n + c.utf8Size) t = some (m, rest) →
        ∃ inner, c :: t = inner ++ d.closer :: rest ∧ m = n + Text.byteLength inner := by
      intro k' h'
      obtain ⟨inner, rfl, rfl⟩ := ih h'
      refine ⟨c :: inner, rfl, ?_⟩
      rw [Text.byteLength_cons]; omega
    unfold close? at h
    split at h
    · rename_i hc
      split at h
      · cases h
        exact ⟨[], by rw [hc]; rfl, rfl⟩
      · exact step _ h
    · split at h
      · exact step _ h
      · exact step _ h

/-- The closer that is read is the one with which the depth first comes to zero, `k` being the number
of openers that are still open besides the first. -/
theorem close?_eq_find (d : Delimiter) (k n : Nat) (t : Text) :
    (close? d k n t).map (·.1) =
      (t.inits.find? fun walked => k + depth d walked = 0).map fun walked => n + Text.byteLength walked.dropLast := by
  induction t generalizing k n with
  | nil =>
    have h1 : ¬ ((k : Int) + 1 = 0) := by omega
    simp [close?, h1]
  | cons c t ih =>
    have h1 : ¬ ((k : Int) + 1 = 0) := by omega
    rw [List.inits_cons, List.find?_cons_of_neg (by simpa using h1), List.find?_map]
    -- Behind `c` the walk goes on with `k'` openers, and never ends with nothing walked.
    have step : ∀ k' : Nat, (∀ w, (k : Int) + depth d (c :: w) = k' + depth d w) →
        Option.map (·.1) (close? d k' (n + c.utf8Size) t) =
          Option.map (fun walked => n + Text.byteLength walked.dropLast)
            (Option.map (fun w => c :: w) (t.inits.find?
              ((fun walked => decide ((k : Int) + depth d walked = 0)) ∘ fun w => c :: w))) := by
      intro k' hk
      have hf : ((fun walked => decide ((k : Int) + depth d walked = 0)) ∘ fun w => c :: w) =
          fun w => decide ((k' : Int) + depth d w = 0) := by
        funext w; simp only [Function.comp_apply, hk]
      rw [hf, ih, Option.map_map]
      cases hw : t.inits.find? (fun w => decide ((k' : Int) + depth d w = 0)) with
      | none => rfl
      | some w =>
        have hz : (k' : Int) + depth d w = 0 := by simpa using List.find?_some hw
        have hne : w ≠ [] := by
          rintro rfl; rw [depth_nil] at hz; omega
        simp only [Option.map_some, Function.comp_apply, List.dropLast_cons_of_ne_nil hne, Text.byteLength_cons,
          Option.some.injEq]
        omega
    unfold close?
    split
    · rename_i hc
      cases k with
      | zero =>
        have h0 : depth d [c] = 0 := by rw [depth_cons, if_pos hc, depth_nil]; rfl
        cases t <;> simp [h0]
      | succ k =>
        exact step k fun w => by rw [depth_cons, if_pos hc]; push_cast; omega
    · rename_i hc
      split
      · rename_i ho
        exact step (k + 1) fun w => by rw [depth_cons, if_neg hc, if_pos ho]; push_cast; omega
      · rename_i ho
        exact step k fun w => by rw [depth_cons, if_neg hc, if_neg ho]

/-- The `closer?` of a call is what `close?` reads from behind the opener. -/
theorem Call.closer?_eq (c : Call) :
    c.closer? = (close? c.delimiter 0 0 c.rest).map fun r => c.start + r.1 := by
  have h := close?_eq_find c.delimiter 0 0 c.rest
  simp only [Int.ofNat_zero, Int.zero_add, Nat.zero_add] at h
  unfold Call.closer?
  have hl := congrArg (Option.map (c.start + ·)) h
  rw [Option.map_map, Option.map_map] at hl
  exact hl.symm

/-! ## The calls of a text -/

theorem callsFrom_cons_of_none {pos : Nat} {c : Char} {t : Text} (h : trigger? (c :: t) = none) :
    callsFrom pos (c :: t) = callsFrom (pos + c.utf8Size) t := by
  rw [callsFrom, h]; rfl

/-- No call begins in a part without the first letter of the name. -/
theorem callsFrom_append_of_ne {a b : Text} (ha : ∀ c ∈ a, c ≠ 'U') (pos : Nat) :
    callsFrom pos (a ++ b) = callsFrom (pos + Text.byteLength a) b := by
  induction a generalizing pos with
  | nil => rfl
  | cons c a ih =>
    rw [List.forall_mem_cons] at ha
    rw [List.cons_append, callsFrom_cons_of_none (trigger?_cons_of_ne ha.1 _), ih ha.2, Text.byteLength_cons,
      Nat.add_assoc]

/-- The call at the very start, and no other before the end of its opener. -/
theorem callsFrom_of_trigger {t : Text} {g : Trigger} (h : trigger? t = some g) (pos : Nat) :
    callsFrom pos t = ⟨pos, g.delimiter, pos + g.length, g.rest⟩ :: callsFrom (pos + g.length) g.rest := by
  obtain ⟨blanks, rfl, hb, hl⟩ := trigger?_eq_some_iff.1 h
  -- What follows the first letter as far as the opener holds no other such letter.
  have hne : ∀ c ∈ ['I', '!'] ++ blanks ++ [g.delimiter.opener], c ≠ 'U' := by
    intro c hc
    simp only [List.mem_append, List.mem_cons, List.not_mem_nil, or_false] at hc
    rcases hc with ((rfl | rfl) | hc) | rfl
    · decide
    · decide
    · rintro rfl
      have := hb _ hc
      revert this; decide
    · exact g.delimiter.opener_ne_U
  have htail : callName ++ blanks ++ g.delimiter.opener :: g.rest =
      'U' :: (['I', '!'] ++ blanks ++ [g.delimiter.opener] ++ g.rest) := by
    simp [callName]
  have hlen : g.length = 'U'.utf8Size + Text.byteLength (['I', '!'] ++ blanks ++ [g.delimiter.opener]) := hl
  rw [htail] at h ⊢
  rw [callsFrom, h, callsFrom_append_of_ne hne, Nat.add_assoc, ← hlen]
  rfl

/-- The calls that begin in the first part of a text come first, and lie in that part. -/
theorem callsFrom_append (pos : Nat) (a b : Text) :
    ∃ inside, callsFrom pos (a ++ b) = inside ++ callsFrom (pos + Text.byteLength a) b ∧
      ∀ c ∈ inside, pos ≤ c.name ∧ c.name < pos + Text.byteLength a := by
  induction a generalizing pos with
  | nil => exact ⟨[], rfl, by simp⟩
  | cons c a ih =>
    obtain ⟨inside, heq, hin⟩ := ih (pos + c.utf8Size)
    have hpos := c.utf8Size_pos
    refine ⟨((trigger? (c :: (a ++ b))).map fun g => ⟨pos, g.delimiter, pos + g.length, g.rest⟩).toList ++ inside,
      ?_, ?_⟩
    · rw [List.cons_append, callsFrom, heq, List.append_assoc, Text.byteLength_cons, Nat.add_assoc]
    · intro k hk
      rw [Text.byteLength_cons]
      rcases List.mem_append.1 hk with hk | hk
      · obtain ⟨g, -, rfl⟩ := Option.map_eq_some_iff.1 (Option.mem_toList.1 hk)
        exact ⟨le_refl _, by simp only; omega⟩
      · have := hin k hk
        omega

/-- The calls of a part of a text are those that stand in it. -/
theorem mem_callsFrom_iff {pos : Nat} {t : Text} {c : Call} :
    c ∈ callsFrom pos t ↔ ∃ before blanks : Text, t = before ++ callName ++ blanks ++ c.delimiter.opener :: c.rest ∧
      (∀ b ∈ blanks, Text.isBlank b = true) ∧ c.name = pos + Text.byteLength before ∧
      c.start = pos + Text.byteLength (before ++ callName ++ blanks ++ [c.delimiter.opener]) := by
  induction t generalizing pos with
  | nil => simp [callsFrom, callName]
  | cons a t ih =>
    rw [callsFrom, List.mem_append, ih, Option.mem_toList, Option.map_eq_some_iff]
    constructor
    · rintro (⟨g, hg, rfl⟩ | ⟨before, blanks, rfl, hb, hn, hs⟩)
      · obtain ⟨blanks, ht, hb, hl⟩ := trigger?_eq_some_iff.1 hg
        exact ⟨[], blanks, ht, hb, rfl, by rw [hl]; rfl⟩
      · refine ⟨a :: before, blanks, rfl, hb, ?_, ?_⟩
        · rw [hn, Text.byteLength_cons]; omega
        · rw [hs]; simp only [List.cons_append, Text.byteLength_cons]; omega
    · rintro ⟨before, blanks, ht, hb, hn, hs⟩
      cases before with
      | nil =>
        left
        refine ⟨⟨c.delimiter, c.start - pos, c.rest⟩, trigger?_eq_some_iff.2 ⟨blanks, ht, hb, ?_⟩, ?_⟩
        · rw [hs]; simp only [List.nil_append]; omega
        · cases c
          simp only [Call.mk.injEq, true_and, and_true]
          simp only [Text.byteLength_nil] at hn hs
          omega
      | cons x before =>
        right
        simp only [List.cons_append, List.cons.injEq] at ht
        obtain ⟨rfl, rfl⟩ := ht
        refine ⟨before, blanks, rfl, hb, ?_, ?_⟩
        · rw [hn, Text.byteLength_cons]; omega
        · rw [hs]; simp only [List.cons_append, Text.byteLength_cons]; omega

theorem mem_calls_iff {t : Text} {c : Call} : c ∈ calls t ↔ c.StandsIn t := by
  unfold calls Call.StandsIn
  rw [mem_callsFrom_iff]
  simp only [Nat.zero_add]

theorem le_name_of_mem_callsFrom {pos : Nat} {t : Text} {c : Call} (h : c ∈ callsFrom pos t) : pos ≤ c.name := by
  obtain ⟨before, -, -, -, hn, -⟩ := mem_callsFrom_iff.1 h
  omega

/-- Calls are listed in the order of their names. -/
theorem callsFrom_pairwise (pos : Nat) (t : Text) : (callsFrom pos t).Pairwise fun a b => a.name < b.name := by
  induction t generalizing pos with
  | nil => exact .nil
  | cons c t ih =>
    have hpos := c.utf8Size_pos
    rw [callsFrom]
    refine List.pairwise_append.2 ⟨?_, ih _, ?_⟩
    · cases trigger? (c :: t) <;> simp
    · intro a ha b hb
      obtain ⟨g, -, rfl⟩ := Option.map_eq_some_iff.1 (Option.mem_toList.1 ha)
      have := le_name_of_mem_callsFrom hb
      simp only; omega

/-! ## The regions taken -/

/-- `take` adds nothing for calls inside of a region that was taken. -/
theorem foldl_take_of_covered {regions : List Region} {cs : List Call}
    (h : ∀ c ∈ cs, ∃ r ∈ regions, covers r c.name = true) : cs.foldl take regions = regions := by
  induction cs with
  | nil => rfl
  | cons c cs ih =>
    rw [List.forall_mem_cons] at h
    obtain ⟨r, hr, hc⟩ := h.1
    have hany : regions.any (covers · c.name) = true := List.any_eq_true.2 ⟨r, hr, hc⟩
    have htake : take regions c = regions := by
      unfold take
      split
      · rfl
      · rw [if_pos hany]
    rw [List.foldl_cons, htake, ih h.2]

theorem subset_take (regions : List Region) (c : Call) : regions ⊆ take regions c := by
  unfold take
  split
  · exact fun _ h => h
  · split
    · exact fun _ h => h
    · exact List.subset_append_left _ _

theorem subset_foldl_take (regions : List Region) (cs : List Call) : regions ⊆ cs.foldl take regions := by
  induction cs generalizing regions with
  | nil => exact fun _ h => h
  | cons c cs ih => exact List.Subset.trans (subset_take regions c) (ih _)

/-- The region of a balanced call is taken, or the call is inside of one that is. -/
theorem mem_foldl_take {regions : List Region} {cs : List Call} {c : Call} {stop : Nat} (hc : c ∈ cs)
    (hs : c.closer? = some stop) (hfree : ∀ r ∈ cs.foldl take regions, covers r c.name = false) :
    ⟨c.start, stop⟩ ∈ cs.foldl take regions := by
  induction cs generalizing regions with
  | nil => cases hc
  | cons a cs ih =>
    rw [List.foldl_cons] at hfree ⊢
    rcases List.mem_cons.1 hc with rfl | hc
    · have hnone : ¬ regions.any (covers · c.name) = true := by
        intro hany
        obtain ⟨r, hr, hcov⟩ := List.any_eq_true.1 hany
        have := hfree r (subset_foldl_take _ cs (subset_take regions c hr))
        rw [this] at hcov; cases hcov
      apply subset_foldl_take
      unfold take
      rw [hs]
      simp only [if_neg hnone, List.mem_append, List.mem_singleton, or_true]
    · exact ih hc hfree

/-! ## The loop of the scanner -/

theorem scanFrom_of_none {pos : Nat} {c : Char} {t : Text} (h : trigger? (c :: t) = none) :
    scanFrom pos (c :: t) = scanFrom (pos + c.utf8Size) t := by
  rw [scanFrom]
  split
  · rfl
  · rename_i hg; rw [h] at hg; cases hg

theorem scanFrom_of_unbalanced {pos : Nat} {t : Text} {g : Trigger} (h : trigger? t = some g)
    (hc : close? g.delimiter 0 0 g.rest = none) : scanFrom pos t = scanFrom (pos + g.length) g.rest := by
  cases t with
  | nil => cases h
  | cons c t =>
    rw [scanFrom]
    split
    · rename_i hg; rw [h] at hg; cases hg
    · rename_i g' hg
      rw [h] at hg; cases hg
      split
      · rfl
      · rename_i hc'; rw [hc] at hc'; cases hc'

theorem scanFrom_of_balanced {pos n : Nat} {t rest : Text} {g : Trigger} (h : trigger? t = some g)
    (hc : close? g.delimiter 0 0 g.rest = some (n, rest)) :
    scanFrom pos t = ⟨pos + g.length, pos + g.length + n⟩ :: scanFrom (pos + g.length + n + 1) rest := by
  cases t with
  | nil => cases h
  | cons c t =>
    rw [scanFrom]
    split
    · rename_i hg; rw [h] at hg; cases hg
    · rename_i g' hg
      rw [h] at hg; cases hg
      split
      · rename_i hc'; rw [hc] at hc'; cases hc'
      · rename_i hc'; rw [hc] at hc'; cases hc'; rfl

/-- `scanFrom` adds the regions of the balanced calls of a part to those before it, as `take` does. The
invariant of the loop is that the regions taken so far end in front of the part. -/
theorem foldl_take_callsFrom (pos : Nat) (t : Text) (regions : List Region) (h : ∀ r ∈ regions, r.stop < pos) :
    (callsFrom pos t).foldl take regions = regions ++ scanFrom pos t := by
  induction pos, t using scanFrom.induct generalizing regions with
  | case1 pos => simp [callsFrom, scanFrom]
  | case2 pos c t hg ih =>
    rw [callsFrom_cons_of_none hg, scanFrom_of_none hg]
    exact ih _ fun r hr => by have := h r hr; omega
  | case3 pos c t g hg hc ih =>
    rw [callsFrom_of_trigger hg, scanFrom_of_unbalanced hg hc, List.foldl_cons]
    have htake : take regions ⟨pos, g.delimiter, pos + g.length, g.rest⟩ = regions := by
      unfold take; rw [Call.closer?_eq, hc]; rfl
    rw [htake]
    exact ih _ fun r hr => by have := h r hr; omega
  | case4 pos c t g hg n rest hc ih =>
    obtain ⟨inner, hrest, hn⟩ := close?_eq_some hc
    rw [Nat.zero_add] at hn
    -- The calls up to the closer are inside of the new region, so that the scan may go on behind it.
    obtain ⟨inside, hcalls, hin⟩ := callsFrom_append (pos + g.length) inner (g.delimiter.closer :: rest)
    rw [← hrest, ← hn] at hcalls
    have hclose : callsFrom (pos + g.length + n) (g.delimiter.closer :: rest) =
        callsFrom (pos + g.length + n + 1) rest := by
      rw [callsFrom_cons_of_none (trigger?_cons_of_ne g.delimiter.closer_ne_U rest), Delimiter.utf8Size_closer]
    have hnone : ¬ regions.any (covers · pos) = true := by
      intro hany
      obtain ⟨r, hr, hcov⟩ := List.any_eq_true.1 hany
      have := h r hr
      simp only [covers, Bool.and_eq_true, decide_eq_true_eq] at hcov
      omega
    have htake : take regions ⟨pos, g.delimiter, pos + g.length, g.rest⟩ =
        regions ++ [⟨pos + g.length, pos + g.length + n⟩] := by
      unfold take; rw [Call.closer?_eq, hc]; simp only [Option.map_some, if_neg hnone]
    have hinside : inside.foldl take (regions ++ [⟨pos + g.length, pos + g.length + n⟩]) =
        regions ++ [⟨pos + g.length, pos + g.length + n⟩] := by
      refine foldl_take_of_covered fun k hk => ⟨_, List.mem_append_right _ (List.mem_singleton.2 rfl), ?_⟩
      have := hin k hk
      simp only [covers, Bool.and_eq_true, decide_eq_true_eq]; omega
    rw [callsFrom_of_trigger hg, hcalls, hclose, scanFrom_of_balanced hg hc, List.foldl_cons, htake, List.foldl_append,
      hinside, ih, List.append_assoc]
    · rfl
    · intro r hr
      rcases List.mem_append.1 hr with hr | hr
      · have := h r hr; omega
      · rw [List.mem_singleton] at hr; subst hr; simp only; omega

theorem scan_eq_foldl (t : Text) : scan t = (calls t).foldl take [] := by
  unfold scan calls
  rw [foldl_take_callsFrom 0 t [] (by simp), List.nil_append]

/-! ## Where regions lie -/

/-- Every region that `scanFrom` finds in a part of a text lies in that part, behind an opener and in front of the
closer of its kind. -/
theorem exists_of_mem_scanFrom {pos : Nat} {t : Text} {r : Region} (hr : r ∈ scanFrom pos t) :
    ∃ (d : Delimiter) (before inner after : Text), t = before ++ d.opener :: inner ++ d.closer :: after ∧
      r.start = pos + Text.byteLength (before ++ [d.opener]) ∧ r.stop = r.start + Text.byteLength inner := by
  induction pos, t using scanFrom.induct with
  | case1 pos => simp [scanFrom] at hr
  | case2 pos c t hg ih =>
    rw [scanFrom_of_none hg] at hr
    obtain ⟨d, before, inner, after, rfl, hs, he⟩ := ih hr
    refine ⟨d, c :: before, inner, after, rfl, ?_, he⟩
    rw [hs, List.cons_append, Text.byteLength_cons]; omega
  | case3 pos c t g hg hc ih =>
    rw [scanFrom_of_unbalanced hg hc] at hr
    obtain ⟨blanks, ht, -, hl⟩ := trigger?_eq_some_iff.1 hg
    obtain ⟨d, before, inner, after, hrest, hs, he⟩ := ih hr
    refine ⟨d, callName ++ blanks ++ [g.delimiter.opener] ++ before, inner, after, ?_, ?_, he⟩
    · rw [ht, hrest]; simp
    · rw [hs, hl]; simp only [Text.byteLength_append]; omega
  | case4 pos c t g hg n rest hc ih =>
    rw [scanFrom_of_balanced hg hc] at hr
    obtain ⟨blanks, ht, -, hl⟩ := trigger?_eq_some_iff.1 hg
    obtain ⟨inner₀, hrest, hn⟩ := close?_eq_some hc
    rcases List.mem_cons.1 hr with rfl | hr
    · refine ⟨g.delimiter, callName ++ blanks, inner₀, rest, ?_, ?_, ?_⟩
      · rw [ht, hrest]; simp
      · simp only [hl]
      · simp only [hn, Nat.zero_add]
    · obtain ⟨d, before, inner, after, hrest', hs, he⟩ := ih hr
      refine ⟨d, callName ++ blanks ++ [g.delimiter.opener] ++ inner₀ ++ [g.delimiter.closer] ++ before, inner, after,
        ?_, ?_, he⟩
      · rw [ht, hrest, hrest']; simp
      · rw [hs, hl, hn]
        simp only [Text.byteLength_append, Text.byteLength_cons, Text.byteLength_nil, Delimiter.utf8Size_closer]
        omega

theorem lt_start_of_mem_scanFrom {pos : Nat} {t : Text} {r : Region} (hr : r ∈ scanFrom pos t) : pos < r.start := by
  obtain ⟨d, before, inner, after, -, hs, -⟩ := exists_of_mem_scanFrom hr
  rw [hs, Text.byteLength_append]
  simp only [Text.byteLength_cons, Delimiter.utf8Size_opener]; omega

theorem scanFrom_pairwise (pos : Nat) (t : Text) : (scanFrom pos t).Pairwise fun r r' => r.stop < r'.start := by
  induction pos, t using scanFrom.induct with
  | case1 pos => rw [scanFrom]; exact .nil
  | case2 pos c t hg ih => rwa [scanFrom_of_none hg]
  | case3 pos c t g hg hc ih => rwa [scanFrom_of_unbalanced hg hc]
  | case4 pos c t g hg n rest hc ih =>
    rw [scanFrom_of_balanced hg hc]
    refine .cons (fun r hr => ?_) ih
    have := lt_start_of_mem_scanFrom hr
    simp only; omega

theorem exists_slice_of_mem_scan {t : Text} {r : Region} (hr : r ∈ scan t) :
    ∃ inner, Text.slice? t r.start r.stop = some inner := by
  obtain ⟨d, before, inner, after, rfl, hstart, hstop⟩ := exists_of_mem_scanFrom hr
  have hslice := Text.slice?_append (before ++ [d.opener]) inner (d.closer :: after)
  refine ⟨inner, ?_⟩
  rw [hstop, hstart, Nat.zero_add, ← Text.byteLength_append]
  simpa using hslice

/-- Every region takes up a byte, for its closer. -/
theorem length_scanFrom_le (pos : Nat) (t : Text) : (scanFrom pos t).length ≤ Text.byteLength t := by
  induction pos, t using scanFrom.induct with
  | case1 pos => simp [scanFrom]
  | case2 pos c t hg ih =>
    rw [scanFrom_of_none hg, Text.byteLength_cons]
    omega
  | case3 pos c t g hg hc ih =>
    obtain ⟨blanks, ht, -, -⟩ := trigger?_eq_some_iff.1 hg
    rw [scanFrom_of_unbalanced hg hc, ht]
    simp only [Text.byteLength_append, Text.byteLength_cons]
    omega
  | case4 pos c t g hg n rest hc ih =>
    obtain ⟨blanks, ht, -, -⟩ := trigger?_eq_some_iff.1 hg
    obtain ⟨inner, hrest, -⟩ := close?_eq_some hc
    rw [scanFrom_of_balanced hg hc, ht, hrest]
    simp only [List.length_cons, Text.byteLength_append, Text.byteLength_cons, Delimiter.utf8Size_opener]
    omega

/-! ## The regions of a text -/

/-- The scanner is exact. The `calls` of a text are all the places where a name, blanks and an opener
stand, in order; the regions that `scan` gives are those of the balanced calls, each from behind the
opener to its `closer?`, the first that brings the depth to zero, less the calls that begin inside of a
region before.
Hence every region lies in the text, on character boundaries, between an opener and the closer of
its kind; consecutive regions are apart; and a balanced call outside of all regions does not
exist. -/
theorem scan_exact (t : Text) :
    ((∀ c, c ∈ calls t ↔ c.StandsIn t) ∧ (calls t).Pairwise fun a b => a.name < b.name) ∧
    scan t = (calls t).foldl take [] ∧
    (∀ r ∈ scan t, r.start ≤ r.stop ∧ r.stop < Text.byteLength t ∧
      Text.isBoundary t r.start = true ∧ Text.isBoundary t r.stop = true ∧
      ∃ (d : Delimiter) (before inner after : Text), t = before ++ d.opener :: inner ++ d.closer :: after ∧
        r.start = Text.byteLength (before ++ [d.opener]) ∧ r.stop = r.start + Text.byteLength inner) ∧
    (scan t).Pairwise (fun r r' => r.stop < r'.start) ∧
    ∀ (c : Call) (stop : Nat), c.StandsIn t → c.closer? = some stop → (∀ r ∈ scan t, covers r c.name = false) →
      ⟨c.start, stop⟩ ∈ scan t := by
  refine ⟨⟨fun c => mem_calls_iff, callsFrom_pairwise 0 t⟩, scan_eq_foldl t, fun r hr => ?_, scanFrom_pairwise 0 t,
    fun c stop hc hs hfree => ?_⟩
  · obtain ⟨d, before, inner, after, ht, hs, he⟩ := exists_of_mem_scanFrom hr
    rw [Nat.zero_add] at hs
    refine ⟨by omega, ?_, ?_, ?_, d, before, inner, after, ht, hs, he⟩
    · rw [he, hs, ht]
      simp only [Text.byteLength_append, Text.byteLength_cons, Delimiter.utf8Size_closer, Text.byteLength_nil]
      omega
    · exact Text.isBoundary_iff.2 ⟨before ++ [d.opener], inner ++ d.closer :: after, by simp [ht], hs.symm⟩
    · refine Text.isBoundary_iff.2 ⟨before ++ [d.opener] ++ inner, d.closer :: after, by simp [ht], ?_⟩
      rw [Text.byteLength_append, he, hs]
  · rw [scan_eq_foldl] at hfree ⊢
    exact mem_foldl_take (mem_calls_iff.2 hc) hs hfree

end Region

end EmbeddedMarkup
