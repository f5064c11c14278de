/-
What is known of a request at each stage: whether it is pending, what the messages so far said of it, and
whether its caller has an outcome. One table, `Known`, says this for all stages, and every `Step` keeps
it. It rests on the order of small steps on both sides. A request is registered before it sees whether the
output has ended, and the end is marked before the pending requests are collected; so a request that saw
no end is among those that are collected.
-/
import EmbeddedMarkup.Proofs.Markup.Exchange
import Mathlib.Data.List.Induction

namespace EmbeddedMarkup.Exchange

def Made (x : Exchange) (id : Nat) : Prop :=
  0 < id ∧ id < x.client.nextId

instance (x : Exchange) (id : Nat) : Decidable (x.Made id) :=
  inferInstanceAs (Decidable (_ ∧ _))

def verdictIn? (x : Exchange) (id : Nat) (mv : Move) : Option Response :=
  if x.Made id then (x.hears? mv).bind (verdict? id) else none

/-- The first verdict on a request among the messages that are read after it was made. -/
def firstVerdict? (x : Exchange) (id : Nat) : List Move → Option Response
  | [] => none
  | mv :: moves => (x.verdictIn? id mv).or ((x.step mv).firstVerdict? id moves)

theorem firstVerdict?_snoc (x : Exchange) (id : Nat) (moves : List Move) (mv : Move) :
    x.firstVerdict? id (moves ++ [mv]) = (x.firstVerdict? id moves).or ((x.run moves).verdictIn? id mv) := by
  induction moves generalizing x with
  | nil => simp [firstVerdict?]
  | cons first moves ih => simp only [List.cons_append, firstVerdict?, ih, run_cons, Option.or_assoc]

/-! ## The table -/

variable (heard : Nat → Option Response) (x : Exchange) (id : Nat)

/-- A response that the request with this id may have: `stopped`, or the first verdict on it. -/
def Justified (r : Response) : Prop :=
  r = .error .stopped ∨ heard id = some r

/-- Whether the reader will stop the request, unless it is settled before. -/
def Caught : Prop :=
  ∀ ids, x.reader = .stopping ids → id ∈ x.client.pending → id ∈ ids

/-- A request has no reply yet just if it is pending, and then there was no verdict on it. -/
def Holds : Option Response → Prop
  | none => id ∈ x.client.pending ∧ heard id = none
  | some r => id ∉ x.client.pending ∧ Justified heard id r

/-- What is known of a request at each stage, when `heard` gives the first verdicts so far. -/
def Known : Stage → Prop
  | .unmade => ¬ x.Made id ∧ id ∉ x.client.pending ∧ (∀ r, (id, r) ∉ x.outcomes) ∧ heard id = none
  | .registered draft => x.Made id ∧ (∀ r, (id, r) ∉ x.outcomes) ∧ Holds heard x id draft.reply
  | .checked draft sawEnd => x.Made id ∧ (∀ r, (id, r) ∉ x.outcomes) ∧ Holds heard x id draft.reply ∧
    if sawEnd then x.client.isEnded = true else Caught x id
  | .waiting => x.Made id ∧ (∀ r, (id, r) ∉ x.outcomes) ∧ id ∈ x.client.pending ∧ heard id = none ∧ Caught x id
  | .abandoned => x.Made id ∧ (∀ r, (id, r) ∉ x.outcomes) ∧ (id ∈ x.client.pending → heard id = none) ∧ Caught x id
  | .concluded => x.Made id ∧ id ∉ x.client.pending ∧ ∃ r, (id, r) ∈ x.outcomes ∧ Justified heard id r

variable {heard x id}

theorem Holds.heard_eq_none {reply : Option Response} (h : Holds heard x id reply) (hid : id ∈ x.client.pending) :
    heard id = none := by
  cases reply with
  | none => exact h.2
  | some r => exact absurd hid h.1

/-- What is `Known` of a request stays known as long as nothing happens to it. -/
theorem Known.congr {heard' : Nat → Option Response} {y : Exchange} {s : Stage} (h : Known heard x id s)
    (hmade : y.Made id ↔ x.Made id) (hpending : id ∈ y.client.pending ↔ id ∈ x.client.pending)
    (hended : x.client.isEnded = true → y.client.isEnded = true)
    (houtcomes : ∀ r, (id, r) ∈ y.outcomes ↔ (id, r) ∈ x.outcomes) (hcaught : Caught x id → Caught y id)
    (hheard : heard' id = heard id ∨ x.Made id ∧ id ∉ x.client.pending ∧ ∀ r, heard id = some r → heard' id = some r) :
    Known heard' y id s := by
  have hjust : ∀ r, Justified heard id r → Justified heard' id r := by
    rintro r (hr | hr)
    · exact .inl hr
    · rcases hheard with heq | ⟨-, -, hmono⟩
      · exact .inr (heq ▸ hr)
      · exact .inr (hmono r hr)
  have hholds : ∀ reply, Holds heard x id reply → Holds heard' y id reply := by
    rintro (_ | r) h
    · exact ⟨hpending.2 h.1, hheard.elim (· ▸ h.2) fun h' => absurd h.1 h'.2.1⟩
    · exact ⟨fun hp => h.1 (hpending.1 hp), hjust r h.2⟩
  -- each row of the table is made of the parts above
  cases s with
  | unmade => grind [Known]
  | registered draft => grind [Known]
  | checked draft sawEnd => grind [Known]
  | waiting => grind [Known]
  | abandoned => grind [Known]
  | concluded => grind [Known]

/-- The invariant of an exchange in which `heard` gives the first verdicts so far. -/
structure Sound (heard : Nat → Option Response) (x : Exchange) : Prop where
  known : ∀ id, Known heard x id (x.stage id)
  once : (x.outcomes.map Prod.fst).Nodup
  ended : x.client.isEnded = true ↔ x.reader ≠ .reading
  start : 0 < x.client.nextId

namespace Sound

variable {heard heard' : Nat → Option Response} {x y : Exchange} {id : Nat}

theorem empty : Sound (fun _ => none) {} := by
  refine ⟨fun id => ?_, List.nodup_nil, by simp, Nat.one_pos⟩
  refine ⟨?_, List.not_mem_nil, fun _ => List.not_mem_nil, rfl⟩
  rintro ⟨h0, h1⟩
  exact absurd h1 (by show ¬ id < 1; omega)

theorem known_of_stage (h : Sound heard x) {s : Stage} (hs : x.stage id = s) : Known heard x id s :=
  hs ▸ h.known id

theorem isEnded_of_reading (h : Sound heard x) (hreading : x.reader = .reading) : x.client.isEnded = false := by
  simpa [hreading] using h.ended

theorem of_mem_pending (h : Sound heard x) (hid : id ∈ x.client.pending) :
    x.Made id ∧ heard id = none ∧ ∀ r, (id, r) ∉ x.outcomes := by
  have hknown := h.known id
  generalize x.stage id = s at hknown
  cases s with
  | unmade => exact absurd hid hknown.2.1
  | registered draft => exact ⟨hknown.1, hknown.2.2.heard_eq_none hid, hknown.2.1⟩
  | checked draft sawEnd => exact ⟨hknown.1, hknown.2.2.1.heard_eq_none hid, hknown.2.1⟩
  | waiting => exact ⟨hknown.1, hknown.2.2.2.1, hknown.2.1⟩
  | abandoned => exact ⟨hknown.1, hknown.2.2.1 hid, hknown.2.1⟩
  | concluded => exact absurd hid hknown.2.1

/-- An outcome is the only one of its request, and `Justified`. -/
theorem justified (h : Sound heard x) {r : Response} (hr : (id, r) ∈ x.outcomes) :
    x.Made id ∧ Justified heard id r := by
  have hknown := h.known id
  generalize x.stage id = s at hknown
  cases s with
  | unmade => exact absurd hr (hknown.2.2.1 r)
  | registered draft => exact absurd hr (hknown.2.1 r)
  | checked draft sawEnd => exact absurd hr (hknown.2.1 r)
  | waiting => exact absurd hr (hknown.2.1 r)
  | abandoned => exact absurd hr (hknown.2.1 r)
  | concluded =>
    obtain ⟨hmade, -, r', hr', hjust⟩ := hknown
    have := List.inj_on_of_nodup_map h.once hr hr' rfl
    cases this
    exact ⟨hmade, hjust⟩

/-- Nothing that `Sound` is about changes. -/
theorem congr (h : Sound heard x) (hnext : y.client.nextId = x.client.nextId)
    (hpending : y.client.pending = x.client.pending) (hended : y.client.isEnded = x.client.isEnded)
    (hstage : y.stage = x.stage) (hreader : y.reader = x.reader) (houtcomes : y.outcomes = x.outcomes)
    (hheard : ∀ id, heard' id = heard id ∨
      x.Made id ∧ id ∉ x.client.pending ∧ ∀ r, heard id = some r → heard' id = some r) : Sound heard' y := by
  refine ⟨fun id => ?_, by rw [houtcomes]; exact h.once, by rw [hended, hreader]; exact h.ended,
    by rw [hnext]; exact h.start⟩
  rw [hstage]
  refine (h.known id).congr ?_ (by rw [hpending]) (fun h => by rw [hended, h]) (by simp [houtcomes]) ?_ (hheard id)
  · unfold Made
    rw [hnext]
  · intro hc
    unfold Caught
    rw [hreader, hpending]
    exact hc

end Sound

/-! ## Steps that are about one request -/

/-- Nothing but the request with this id changes from `x` to `y`. -/
structure Touches (x : Exchange) (id : Nat) (y : Exchange) : Prop where
  stage : ∀ i, i ≠ id → y.stage i = x.stage i
  made : ∀ i, i ≠ id → (y.Made i ↔ x.Made i)
  pending : ∀ i, i ≠ id → (i ∈ y.client.pending ↔ i ∈ x.client.pending)
  outcomes : ∀ i r, i ≠ id → ((i, r) ∈ y.outcomes ↔ (i, r) ∈ x.outcomes)
  ended : y.client.isEnded = x.client.isEnded
  reader : y.reader = x.reader

namespace Touches

variable {x y z : Exchange} {id : Nat}

theorem refl : Touches x id x :=
  ⟨fun _ _ => rfl, fun _ _ => .rfl, fun _ _ => .rfl, fun _ _ _ => .rfl, rfl, rfl⟩

theorem trans (h : Touches x id y) (h' : Touches y id z) : Touches x id z :=
  ⟨fun i hi => (h'.stage i hi).trans (h.stage i hi), fun i hi => (h'.made i hi).trans (h.made i hi),
    fun i hi => (h'.pending i hi).trans (h.pending i hi), fun i r hi => (h'.outcomes i r hi).trans (h.outcomes i r hi),
    h'.ended.trans h.ended, h'.reader.trans h.reader⟩

theorem setStage (s : Stage) : Touches x id (x.setStage id s) :=
  ⟨fun _ hi => Function.update_of_ne hi _ _, fun _ _ => .rfl, fun _ _ => .rfl, fun _ _ _ => .rfl, rfl, rfl⟩

theorem conclude (r : Response) : Touches x id (x.conclude id r) :=
  ⟨fun _ hi => Function.update_of_ne hi _ _, fun _ _ => .rfl, fun _ _ => .rfl, fun i r' hi => by simp [hi], rfl, rfl⟩

theorem withdraw : Touches x id (x.withdraw id) := by
  refine ⟨fun _ _ => rfl, fun _ _ => .rfl, fun i hi => ?_, fun _ _ _ => .rfl, rfl, rfl⟩
  simp [Exchange.withdraw, Client.withdraw, hi]

theorem post (m : Outgoing) : Touches x id (x.post m) :=
  ⟨fun _ _ => rfl, fun _ _ => .rfl, fun _ _ => .rfl, fun _ _ _ => .rfl, rfl, rfl⟩

theorem give (r : Response) : Touches x id (x.give id r) := by
  unfold Exchange.give
  split
  · exact setStage _
  · exact setStage _
  · exact conclude r
  · exact refl

end Touches

theorem Sound.touch {heard heard' : Nat → Option Response} {x y : Exchange} {id : Nat} (h : Sound heard x)
    (ht : Touches x id y) (hheard : ∀ i, i ≠ id → heard' i = heard i) (hknown : Known heard' y id (y.stage id))
    (honce : (y.outcomes.map Prod.fst).Nodup) (hstart : 0 < y.client.nextId) : Sound heard' y := by
  refine ⟨fun i => ?_, honce, by rw [ht.ended, ht.reader]; exact h.ended, hstart⟩
  by_cases hi : i = id
  · exact hi ▸ hknown
  · rw [ht.stage i hi]
    refine (h.known i).congr (ht.made i hi) (ht.pending i hi) (fun he => by rw [ht.ended, he])
      (fun r => ht.outcomes i r hi) (fun hc => ?_) (.inl (hheard i hi))
    intro ids hids hp
    exact hc ids (ht.reader ▸ hids) ((ht.pending i hi).1 hp)

namespace Sound

variable {heard heard' : Nat → Option Response} {x : Exchange} {id : Nat}

theorem once_conclude (h : Sound heard x) (hid : ∀ r, (id, r) ∉ x.outcomes) (r : Response) :
    ((x.outcomes ++ [(id, r)]).map Prod.fst).Nodup := by
  rw [List.map_append, List.nodup_append]
  refine ⟨h.once, by simp, ?_⟩
  rintro a ha b hb rfl
  obtain ⟨⟨i, r'⟩, hmem, rfl⟩ := List.mem_map.1 ha
  simp only [List.map_cons, List.map_nil, List.mem_singleton] at hb
  exact hid r' (hb ▸ hmem)

theorem register (h : Sound heard x) (method : String) (params : Json) :
    Sound heard ({ x with client := x.client.register.1 }.setStage x.client.nextId (.registered { method, params })) := by
  have hnew : ¬ x.Made x.client.nextId := fun hm => absurd hm.2 (Nat.lt_irrefl _)
  have hstage : x.stage x.client.nextId = .unmade := by
    cases hs : x.stage x.client.nextId with
    | unmade => rfl
    | _ =>
      have := h.known x.client.nextId
      rw [hs] at this
      exact absurd this.1 hnew
  obtain ⟨-, -, hout, hheard⟩ := h.known_of_stage hstage
  have ht : Touches x x.client.nextId { x with client := x.client.register.1 } := by
    refine ⟨fun _ _ => rfl, fun i hi => ?_, fun i hi => ?_, fun _ _ _ => .rfl, rfl, rfl⟩
    · show 0 < i ∧ i < x.client.nextId + 1 ↔ 0 < i ∧ i < x.client.nextId
      omega
    · show i ∈ x.client.pending ++ [x.client.nextId] ↔ i ∈ x.client.pending
      simp [hi]
  refine h.touch (ht.trans (.setStage _)) (fun _ _ => rfl) ?_ h.once (Nat.succ_pos _)
  rw [setStage_stage, Function.update_self]
  refine ⟨⟨h.start, Nat.lt_succ_self _⟩, hout, ?_, hheard⟩
  exact List.mem_append_right _ (List.mem_singleton.2 rfl)

theorem check (h : Sound heard x) {draft : Draft} (hs : x.stage id = .registered draft) :
    Sound heard (x.setStage id (.checked draft x.client.isEnded)) := by
  obtain ⟨hmade, hout, hholds⟩ := h.known_of_stage hs
  refine h.touch (.setStage _) (fun _ _ => rfl) ?_ h.once h.start
  rw [setStage_stage, Function.update_self]
  refine ⟨hmade, hout, hholds, ?_⟩
  split
  · assumption
  · -- no end was seen, so that the reader has collected nothing yet
    rename_i hended
    intro ids hids
    have := h.ended.2 (by rw [show x.reader = _ from hids]; simp)
    exact absurd this hended

theorem wait (h : Sound heard x) {draft : Draft} (hs : x.stage id = .checked draft false) (hreply : draft.reply = none)
    (m : Outgoing) : Sound heard ((x.post m).setStage id .waiting) := by
  obtain ⟨hmade, hout, hholds, hcaught⟩ := h.known_of_stage hs
  rw [hreply] at hholds
  refine h.touch ((Touches.post m).trans (.setStage _)) (fun _ _ => rfl) ?_ h.once h.start
  rw [setStage_stage, Function.update_self]
  exact ⟨hmade, hout, hholds.1, hholds.2, hcaught⟩

theorem abandon (h : Sound heard x) (hs : x.stage id = .waiting) : Sound heard (x.setStage id .abandoned) := by
  obtain ⟨hmade, hout, hpending, hheard, hcaught⟩ := h.known_of_stage hs
  refine h.touch (.setStage _) (fun _ _ => rfl) ?_ h.once h.start
  rw [setStage_stage, Function.update_self]
  exact ⟨hmade, hout, fun _ => hheard, hcaught⟩

/-- A request ends with a `Justified` response, and is pending no more. -/
theorem conclude (h : Sound heard x) (hheard : ∀ i, i ≠ id → heard' i = heard i) (hmade : x.Made id)
    (hout : ∀ r, (id, r) ∉ x.outcomes) {r : Response} (hr : Justified heard' id r) {y : Exchange} (ht : Touches x id y)
    (hpending : id ∉ y.client.pending) (houtcomes : y.outcomes = x.outcomes) (hnext : y.client.nextId = x.client.nextId) :
    Sound heard' (y.conclude id r) := by
  refine h.touch (ht.trans (.conclude r)) hheard ?_ ?_ ?_
  · rw [conclude_stage, Function.update_self]
    refine ⟨?_, hpending, r, by simp, hr⟩
    unfold Made at hmade ⊢
    rwa [conclude_client, hnext]
  · rw [conclude_outcomes, houtcomes]
    exact h.once_conclude hout r
  · rw [conclude_client, hnext]
    exact h.start

theorem sendReplied (h : Sound heard x) {draft : Draft} (hs : x.stage id = .checked draft false) {r : Response}
    (hreply : draft.reply = some r) (m : Outgoing) : Sound heard ((x.post m).conclude id r) := by
  obtain ⟨hmade, hout, hholds, -⟩ := h.known_of_stage hs
  rw [hreply] at hholds
  exact h.conclude (fun _ _ => rfl) hmade hout hholds.2 (.post m) hholds.1 rfl rfl

theorem not_mem_withdraw : id ∉ (x.withdraw id).client.pending := by
  simp [withdraw, Client.withdraw]

theorem fail (h : Sound heard x) {draft : Draft} {sawEnd : Bool} (hs : x.stage id = .checked draft sawEnd) :
    Sound heard ((x.withdraw id).conclude id (.error .stopped)) := by
  obtain ⟨hmade, hout, -⟩ := h.known_of_stage hs
  exact h.conclude (fun _ _ => rfl) hmade hout (.inl rfl) .withdraw not_mem_withdraw rfl rfl

theorem give (h : Sound heard x) (hid : id ∈ x.client.pending) {r : Response}
    (hheard : ∀ i, i ≠ id → heard' i = heard i) (hr : Justified heard' id r) :
    Sound heard' ((x.withdraw id).give id r) := by
  have ht : Touches x id ((x.withdraw id).give id r) := Touches.withdraw.trans (.give r)
  have hcaught : ∀ y : Exchange, y.client = (x.withdraw id).client → Caught y id := by
    intro y hy ids _ hmem
    rw [hy] at hmem
    exact absurd hmem not_mem_withdraw
  cases hs : x.stage id with
  | unmade => exact absurd hid (h.known_of_stage hs).2.1
  | concluded => exact absurd hid (h.known_of_stage hs).2.1
  | registered draft =>
    obtain ⟨hmade, hout, -⟩ := h.known_of_stage hs
    rw [give_of_registered (x := x.withdraw id) hs] at ht ⊢
    refine h.touch ht hheard ?_ h.once h.start
    rw [setStage_stage, Function.update_self]
    exact ⟨hmade, hout, not_mem_withdraw, hr⟩
  | checked draft sawEnd =>
    obtain ⟨hmade, hout, -, hsaw⟩ := h.known_of_stage hs
    rw [give_of_checked (x := x.withdraw id) hs] at ht ⊢
    refine h.touch ht hheard ?_ h.once h.start
    rw [setStage_stage, Function.update_self]
    refine ⟨hmade, hout, ⟨not_mem_withdraw, hr⟩, ?_⟩
    cases sawEnd with
    | true => exact hsaw
    | false => exact hcaught _ rfl
  | waiting =>
    obtain ⟨hmade, hout, -⟩ := h.known_of_stage hs
    rw [give_of_waiting (x := x.withdraw id) hs]
    exact h.conclude hheard hmade hout hr .withdraw not_mem_withdraw rfl rfl
  | abandoned =>
    obtain ⟨hmade, hout, -⟩ := h.known_of_stage hs
    have hgive : (x.withdraw id).give id r = x.withdraw id := by
      simp only [Exchange.give, show (x.withdraw id).stage id = _ from hs]
    rw [hgive] at ht ⊢
    refine h.touch ht hheard ?_ h.once h.start
    rw [show (x.withdraw id).stage id = _ from hs]
    exact ⟨hmade, hout, fun hmem => absurd hmem not_mem_withdraw, hcaught _ rfl⟩

/-- The reader goes on, while `stopping`, behind a request that is not pending. -/
theorem passBy (h : Sound heard x) {ids : List Nat} (hids : x.reader = .stopping (id :: ids))
    (hid : id ∉ x.client.pending) : Sound heard { x with reader := .stopping ids } := by
  refine ⟨fun i => ?_, h.once, ?_, h.start⟩
  · refine (h.known i).congr .rfl .rfl (fun he => he) (fun _ => .rfl) (fun hc ids' hids' hmem => ?_) (.inl rfl)
    cases hids'
    rcases List.mem_cons.1 (hc _ hids hmem) with rfl | hi
    · exact absurd hmem hid
    · exact hi
  · have : x.client.isEnded = true := h.ended.2 (by simp [hids])
    simp [this]

theorem markEnd (h : Sound heard x) :
    Sound heard { x with client := x.client.markEnded, reader := .ended } := by
  refine ⟨fun i => ?_, h.once, by simp [Client.markEnded], h.start⟩
  refine (h.known i).congr .rfl .rfl (fun _ => rfl) (fun _ => .rfl) (fun _ ids hids => ?_) (.inl rfl)
  cases hids

theorem collect (h : Sound heard x) (hended : x.reader = .ended) :
    Sound heard { x with reader := .stopping x.client.pending } := by
  refine ⟨fun i => ?_, h.once, ?_, h.start⟩
  · refine (h.known i).congr .rfl .rfl (fun he => he) (fun _ => .rfl) (fun _ ids hids hmem => ?_) (.inl rfl)
    cases hids
    exact hmem
  · have : x.client.isEnded = true := h.ended.2 (by simp [hended])
    simp [this]

end Sound

/-! ## All steps -/

theorem give_client (x : Exchange) (id : Nat) (r : Response) : (x.give id r).client = x.client := by
  unfold give
  split <;> rfl

theorem verdict?_unique {message : Json} {id i : Nat} {r : Response} (h : verdict? id message = some r) (hi : i ≠ id) :
    verdict? i message = none := by
  unfold verdict? at h ⊢
  split at h
  · rename_i hc
    rw [if_neg]
    rintro ⟨hc', -⟩
    have := hc.1.symm.trans hc'
    simp only [Option.some.injEq, Nat.cast_inj] at this
    exact hi this.symm
  · cases h

def hear (x : Exchange) (heard : Nat → Option Response) (mv : Move) (id : Nat) : Option Response :=
  (heard id).or (x.verdictIn? id mv)

theorem hear_of_none {x : Exchange} {mv : Move} (h : x.hears? mv = none) (heard : Nat → Option Response) :
    x.hear heard mv = heard := by
  funext id
  simp [hear, verdictIn?, h]

theorem Sound.step {heard : Nat → Option Response} {x y : Exchange} {mv : Move} (h : Sound heard x) (hstep : Step x mv y) :
    Sound (x.hear heard mv) y := by
  cases hstep with
  | idle hrequest hverdict hanswer =>
    refine h.congr rfl rfl rfl rfl rfl rfl fun id => ?_
    -- a verdict that comes when its request is not pending is not the first one
    by_cases hmade : x.Made id
    · by_cases hid : id ∈ x.client.pending
      · left
        simp [hear, verdictIn?, hverdict id hid]
      · right
        refine ⟨hmade, hid, fun r hr => ?_⟩
        simp [hear, hr]
    · left
      simp [hear, verdictIn?, hmade]
  | register method params => rw [hear_of_none rfl]; exact h.register method params
  | check hs => rw [hear_of_none rfl]; exact h.check hs
  | send hs hmute hreply => rw [hear_of_none rfl]; exact h.wait hs hreply _
  | sendReplied hs hmute hreply => rw [hear_of_none rfl]; exact h.sendReplied hs hreply _
  | fail hs hstopped => rw [hear_of_none rfl]; exact h.fail hs
  | abandon hs => rw [hear_of_none rfl]; exact h.abandon hs
  | notify hmute => rw [hear_of_none rfl]; exact h.congr rfl rfl rfl rfl rfl rfl fun _ => .inl rfl
  | @settle message id r hreading hpending hverdict =>
    obtain ⟨hmade, hheard, -⟩ := h.of_mem_pending hpending
    have hhears : x.hears? (.receive message) = some message := by simp only [hears?, hreading]
    refine h.give hpending (fun i hi => ?_) (.inr ?_)
    · simp [hear, verdictIn?, hhears, verdict?_unique hverdict hi]
    · simp [hear, verdictIn?, hhears, hmade, hheard, hverdict]
  | @answer message m hreading hmute hverdict hanswer =>
    have hhears : x.hears? (.receive message) = some message := by simp only [hears?, hreading]
    refine h.congr rfl rfl rfl rfl rfl rfl fun id => .inl ?_
    simp [hear, verdictIn?, hhears, hverdict id]
  | markEnd hreading => rw [hear_of_none rfl]; exact h.markEnd
  | collect hended => rw [hear_of_none rfl]; exact h.collect hended
  | @stop id ids hstopping hpending =>
    rw [hear_of_none rfl]
    have ht : Touches x id ((x.withdraw id).give id (.error .stopped)) := Touches.withdraw.trans (.give _)
    refine (h.give hpending (fun _ _ => rfl) (.inl rfl)).passBy (ht.reader.trans hstopping) ?_
    rw [give_client]
    exact Sound.not_mem_withdraw
  | skip hstopping hpending => rw [hear_of_none rfl]; exact h.passBy hstopping hpending
  | write hqueue => rw [hear_of_none rfl]; exact h.congr rfl rfl rfl rfl rfl rfl fun _ => .inl rfl
  | breakDown hqueue => rw [hear_of_none rfl]; exact h.congr rfl rfl rfl rfl rfl rfl fun _ => .inl rfl

/-- `Sound` holds after every run from the start, with `firstVerdict?` for what was heard. -/
theorem sound_run (moves : List Move) :
    Sound (fun id => ({} : Exchange).firstVerdict? id moves) (({} : Exchange).run moves) := by
  induction moves using List.reverseRecOn with
  | nil => exact Sound.empty
  | append_singleton moves mv ih =>
    have hstep := ih.step (step_spec _ mv)
    rw [run_append]
    simp only [firstVerdict?_snoc]
    exact hstep

end EmbeddedMarkup.Exchange
