/-
The tasks of a `Debouncer` and the handles to them. `Sound` ties the two together: a task was given up,
by its flag and by the executor alike, just if no handle leads to it. So `schedule`, `cancel` and `clear`,
which follow handles, give up the tasks of the documents that they are about and no others: `giveUp` says
that of all three. The second half is about `held`, the tasks that were not given up, and `armed`, the
tickets of those among them that are yet to start or to go on.
-/
import EmbeddedMarkup.Debouncer.Basic
import EmbeddedMarkup.Proofs.Keyed

namespace EmbeddedMarkup

/-- Whether a task in this phase is yet to go to sleep, or waits for an alarm. -/
def Phase.isArmed : Phase → Bool
  | spawned _ => true
  | phase => phase.alarm?.isSome

namespace Task

variable {α : Type}

/-- A task apart from how far it is. -/
def label (t : Task α) : Task α :=
  { t with phase := .finished }

@[simp] theorem label_uri (t : Task α) : t.label.uri = t.uri := rfl

@[simp] theorem label_ticket (t : Task α) : t.label.ticket = t.ticket := rfl

@[simp] theorem label_job (t : Task α) : t.label.job = t.job := rfl

@[simp] theorem label_cancelled (t : Task α) : t.label.cancelled = t.cancelled := rfl

theorem of_label_eq {t t' : Task α} (h : t.label = t'.label) :
    t.uri = t'.uri ∧ t.ticket = t'.ticket ∧ t.cancelled = t'.cancelled ∧ t.aborted = t'.aborted := by
  cases t
  cases t'
  simp only [label, mk.injEq] at h
  simp [h]

@[simp] theorem label_poll (now : Nat) (t : Task α) : (t.poll now).label = t.label := by
  unfold poll
  split
  · rfl
  · split <;> rfl

/-- A task that is given up if `p` says so of its document. -/
def revokeIf (p : Url → Bool) (t : Task α) : Task α :=
  if p t.uri then t.revoke else t

@[simp] theorem revokeIf_uri (p : Url → Bool) (t : Task α) : (t.revokeIf p).uri = t.uri := by
  unfold revokeIf
  split <;> rfl

@[simp] theorem revokeIf_ticket (p : Url → Bool) (t : Task α) : (t.revokeIf p).ticket = t.ticket := by
  unfold revokeIf
  split <;> rfl

@[simp] theorem revokeIf_job (p : Url → Bool) (t : Task α) : (t.revokeIf p).job = t.job := by
  unfold revokeIf
  split <;> rfl

@[simp] theorem revokeIf_phase (p : Url → Bool) (t : Task α) : (t.revokeIf p).phase = t.phase := by
  unfold revokeIf
  split <;> rfl

@[simp] theorem revokeIf_cancelled (p : Url → Bool) (t : Task α) :
    (t.revokeIf p).cancelled = (t.cancelled || p t.uri) := by
  unfold revokeIf
  split <;> simp_all [revoke]

@[simp] theorem revokeIf_aborted (p : Url → Bool) (t : Task α) :
    (t.revokeIf p).aborted = (t.aborted || p t.uri) := by
  unfold revokeIf
  split <;> simp_all [revoke]

/-- `revoke` once more changes nothing. -/
theorem revoke_eq_self {t : Task α} (h : t.cancelled = true) (h' : t.aborted = true) : t.revoke = t := by
  cases t
  cases h
  cases h'
  rfl

end Task

namespace Debouncer

variable {α : Type} {d d' : Debouncer α}

/-! ## Handles -/

theorem handle?_eq_none_iff {uri : Url} : d.handle? uri = none ↔ ∀ x ∈ d.handles, x.1 ≠ uri := by
  simp [handle?]

theorem handles_cancel (d : Debouncer α) (uri : Url) :
    (d.cancel uri).1.handles = d.handles.filter fun x => x.1 ≠ uri := by
  unfold cancel
  split
  · rename_i hnone
    exact (List.filter_eq_self.2 fun x hx => by simpa using handle?_eq_none_iff.1 hnone x hx).symm
  · rfl

theorem handles_schedule (d : Debouncer α) (uri : Url) (delay : Nat) (job : α) :
    (d.schedule uri delay job).handles = (d.handles.filter fun x => x.1 ≠ uri) ++ [(uri, d.alarms)] := by
  unfold schedule
  split <;> rfl

/-- Without a handle for a document there is nothing to give up. -/
theorem cancel_eq_self {uri : Url} (h : ∀ x ∈ d.handles, x.1 ≠ uri) : (d.cancel uri).1 = d := by
  unfold cancel
  rw [handle?_eq_none_iff.2 h]

/-! ## Handles, flags and tasks -/

/-- The invariant: no two tasks have a ticket in common, no document has two handles, the executor is told
to drop just the tasks whose flags are set, and the tasks behind the handles are the other ones. -/
structure Sound (d : Debouncer α) : Prop where
  tickets : (d.tasks.map (·.ticket)).Nodup
  issued : ∀ t ∈ d.tasks, t.ticket < d.alarms
  aborted : ∀ t ∈ d.tasks, t.aborted = t.cancelled
  uris : (d.handles.map (·.1)).Nodup
  kept : ∀ t ∈ d.tasks, t.cancelled = false → (t.uri, t.ticket) ∈ d.handles
  known : ∀ h ∈ d.handles, ∃ t ∈ d.tasks, t.uri = h.1 ∧ t.ticket = h.2 ∧ t.cancelled = false

/-- The debouncer when the tasks of all documents are given up of which `p` says so. -/
def giveUp (d : Debouncer α) (p : Url → Bool) : Debouncer α :=
  { d with handles := d.handles.filter fun h => !p h.1, tasks := d.tasks.map (Task.revokeIf p) }

/-- `revoke` for one handle after the other gives up all of their tasks. -/
theorem foldl_revoke (d : Debouncer α) (handles : List (Url × Nat)) :
    handles.foldl (fun d h => d.revoke h.2) d =
      { d with tasks := d.tasks.map fun t => if t.ticket ∈ handles.map (·.2) then t.revoke else t } := by
  induction handles generalizing d with
  | nil => simp
  | cons x handles ih =>
    rw [List.foldl_cons, ih]
    simp only [revoke, List.map_map, List.map_cons, List.mem_cons]
    congr 1
    refine List.map_congr_left fun t _ => ?_
    by_cases hx : t.ticket = x.2 <;> by_cases hrest : t.ticket ∈ handles.map (·.2) <;> simp_all [Task.revoke]

namespace Sound

theorem empty : Sound ({} : Debouncer α) := by
  constructor <;> simp

theorem eq_of_ticket (h : Sound d) {t x : Task α} (ht : t ∈ d.tasks) (hx : x ∈ d.tasks)
    (he : x.ticket = t.ticket) : x = t :=
  List.inj_on_of_nodup_map h.tickets hx ht he

theorem handle?_eq_some_iff (h : Sound d) {uri : Url} {ticket : Nat} :
    d.handle? uri = some ticket ↔ (uri, ticket) ∈ d.handles := by
  unfold handle?
  rw [Option.map_eq_some_iff]
  constructor
  · rintro ⟨⟨uri', ticket'⟩, hfind, rfl⟩
    obtain ⟨hmem, rfl⟩ := (Keyed.find?_eq_some_iff Prod.fst h.uris).1 hfind
    exact hmem
  · intro hmem
    exact ⟨(uri, ticket), (Keyed.find?_eq_some_iff Prod.fst h.uris).2 ⟨hmem, rfl⟩, rfl⟩

/-- `handle?` of a document leads to the task for it that was not given up. -/
theorem handle?_iff (h : Sound d) {t : Task α} (ht : t ∈ d.tasks) {uri : Url} :
    d.handle? uri = some t.ticket ↔ t.uri = uri ∧ t.cancelled = false := by
  rw [h.handle?_eq_some_iff]
  constructor
  · intro hmem
    obtain ⟨x, hx, huri, hticket, hkept⟩ := h.known _ hmem
    obtain rfl := h.eq_of_ticket ht hx hticket
    exact ⟨huri, hkept⟩
  · rintro ⟨rfl, hkept⟩
    exact h.kept t ht hkept

theorem exists_of_handle? (h : Sound d) {uri : Url} {ticket : Nat} (hh : d.handle? uri = some ticket) :
    ∃ t ∈ d.tasks, t.uri = uri ∧ t.ticket = ticket ∧ t.cancelled = false :=
  h.known _ (h.handle?_eq_some_iff.1 hh)

theorem revoke_of_cancelled (h : Sound d) {t : Task α} (ht : t ∈ d.tasks) (hc : t.cancelled = true) :
    t.revoke = t :=
  Task.revoke_eq_self hc ((h.aborted t ht).trans hc)

/-- Phases have no part in `Sound`. -/
theorem of_labels (h : Sound d) (hlabels : d'.tasks.map Task.label = d.tasks.map Task.label)
    (hhandles : d'.handles = d.handles) (halarms : d.alarms ≤ d'.alarms) : Sound d' := by
  have hold : ∀ t' ∈ d'.tasks, ∃ t ∈ d.tasks, t.label = t'.label := fun t' ht' =>
    List.mem_map.1 (hlabels ▸ List.mem_map_of_mem ht')
  have hnew : ∀ t ∈ d.tasks, ∃ t' ∈ d'.tasks, t'.label = t.label := fun t ht =>
    List.mem_map.1 (hlabels.symm ▸ List.mem_map_of_mem ht)
  have htickets : d'.tasks.map (·.ticket) = d.tasks.map (·.ticket) := by
    have hmap := congrArg (List.map Task.ticket) hlabels
    rwa [List.map_map, List.map_map] at hmap
  refine ⟨htickets ▸ h.tickets, fun t' ht' => ?_, fun t' ht' => ?_, hhandles ▸ h.uris, fun t' ht' hkept => ?_,
    fun x hx => ?_⟩
  · obtain ⟨t, ht, he⟩ := hold t' ht'
    obtain ⟨-, hticket, -⟩ := Task.of_label_eq he
    exact hticket ▸ Nat.lt_of_lt_of_le (h.issued t ht) halarms
  · obtain ⟨t, ht, he⟩ := hold t' ht'
    obtain ⟨-, -, hcancelled, haborted⟩ := Task.of_label_eq he
    rw [← haborted, ← hcancelled, h.aborted t ht]
  · obtain ⟨t, ht, he⟩ := hold t' ht'
    obtain ⟨huri, hticket, hcancelled, -⟩ := Task.of_label_eq he
    rw [hhandles, ← huri, ← hticket]
    exact h.kept t ht (hcancelled.trans hkept)
  · rw [hhandles] at hx
    obtain ⟨t, ht, huri, hticket, hkept⟩ := h.known x hx
    obtain ⟨t', ht', he⟩ := hnew t ht
    obtain ⟨huri', hticket', hcancelled, -⟩ := Task.of_label_eq he
    exact ⟨t', ht', huri'.trans huri, hticket'.trans hticket, hcancelled.trans hkept⟩

theorem giveUp (h : Sound d) (p : Url → Bool) : Sound (d.giveUp p) := by
  refine ⟨?_, ?_, ?_, h.uris.sublist (List.filter_sublist.map _), ?_, ?_⟩
  · have hmap : (d.tasks.map (Task.revokeIf p)).map (·.ticket) = d.tasks.map (·.ticket) := by simp
    exact hmap ▸ h.tickets
  · intro t' ht'
    obtain ⟨t, ht, rfl⟩ := List.mem_map.1 ht'
    rw [Task.revokeIf_ticket]
    exact h.issued t ht
  · intro t' ht'
    obtain ⟨t, ht, rfl⟩ := List.mem_map.1 ht'
    rw [Task.revokeIf_aborted, Task.revokeIf_cancelled, h.aborted t ht]
  · intro t' ht' hkept
    obtain ⟨t, ht, rfl⟩ := List.mem_map.1 ht'
    rw [Task.revokeIf_cancelled, Bool.or_eq_false_iff] at hkept
    rw [Task.revokeIf_uri, Task.revokeIf_ticket]
    exact List.mem_filter.2 ⟨h.kept t ht hkept.1, by simp [hkept.2]⟩
  · intro x hx
    obtain ⟨hx, hp⟩ := List.mem_filter.1 hx
    obtain ⟨t, ht, huri, hticket, hkept⟩ := h.known x hx
    refine ⟨t.revokeIf p, List.mem_map_of_mem ht, by rw [Task.revokeIf_uri, huri], by rw [Task.revokeIf_ticket, hticket],
      ?_⟩
    rw [Task.revokeIf_cancelled, hkept, huri]
    simpa using hp

/-- A handle leads to the one task for its document that is left to give up. -/
theorem revokeIf_eq (h : Sound d) {t : Task α} (ht : t ∈ d.tasks) (uri : Url) :
    t.revokeIf (· = uri) = if d.handle? uri = some t.ticket then t.revoke else t := by
  rw [Task.revokeIf]
  simp only [h.handle?_iff ht, decide_eq_true_eq]
  by_cases huri : t.uri = uri
  · cases hc : t.cancelled with
    | true => simp [huri, h.revoke_of_cancelled ht hc]
    | false => simp [huri]
  · simp [huri]

theorem cancel_eq (h : Sound d) (uri : Url) : (d.cancel uri).1 = d.giveUp (· = uri) := by
  have htasks := List.map_congr_left fun t ht => h.revokeIf_eq (t := t) ht uri
  unfold cancel Debouncer.giveUp
  rw [htasks]
  cases hh : d.handle? uri with
  | none =>
    have hhandles : d.handles.filter (fun x => !decide (x.1 = uri)) = d.handles :=
      List.filter_eq_self.2 fun x hx => by simpa using handle?_eq_none_iff.1 hh x hx
    simp [hhandles]
  | some ticket => simp [dropHandle, Debouncer.revoke, eq_comm]

/-- A task that is spawned for a document without a handle gets the handle. -/
theorem spawn (h : Sound d) {uri : Url} (hfree : ∀ x ∈ d.handles, x.1 ≠ uri) (delay : Nat) (job : α) :
    Sound (d.spawn uri delay job) := by
  have hhandles : (d.dropHandle uri).handles = d.handles :=
    List.filter_eq_self.2 fun x hx => by simpa using hfree x hx
  refine ⟨?_, fun t ht => ?_, fun t ht => ?_, Keyed.nodup_put Prod.fst h.uris (uri, d.alarms), fun t ht hkept => ?_,
    fun x hx => ?_⟩
  · show ((d.tasks ++ [_]).map Task.ticket).Nodup
    rw [List.map_append, List.nodup_append]
    refine ⟨h.tickets, List.nodup_singleton _, ?_⟩
    rintro a ha b hb rfl
    obtain ⟨t, ht, rfl⟩ := List.mem_map.1 ha
    have hlt := h.issued t ht
    rw [List.map_singleton, List.mem_singleton] at hb
    exact absurd hb (Nat.ne_of_lt hlt)
  · rcases List.mem_append.1 ht with ht | ht
    · exact Nat.lt_succ_of_lt (h.issued t ht)
    · rw [List.mem_singleton.1 ht]
      exact Nat.lt_succ_self _
  · rcases List.mem_append.1 ht with ht | ht
    · exact h.aborted t ht
    · rw [List.mem_singleton.1 ht]
  · show (t.uri, t.ticket) ∈ (d.dropHandle uri).handles ++ [(uri, d.alarms)]
    rw [hhandles]
    rcases List.mem_append.1 ht with ht | ht
    · exact List.mem_append_left _ (h.kept t ht hkept)
    · rw [List.mem_singleton.1 ht]
      exact List.mem_append_right _ (List.mem_singleton_self _)
  · have hx : x ∈ (d.dropHandle uri).handles ++ [(uri, d.alarms)] := hx
    rw [hhandles] at hx
    rcases List.mem_append.1 hx with hx | hx
    · obtain ⟨t, ht, hknown⟩ := h.known x hx
      exact ⟨t, List.mem_append_left _ ht, hknown⟩
    · rw [List.mem_singleton.1 hx]
      exact ⟨_, List.mem_append_right _ (List.mem_singleton_self _), rfl, rfl, rfl⟩

theorem not_mem_giveUp {uri : Url} : ∀ x ∈ (d.giveUp (· = uri)).handles, x.1 ≠ uri := by
  intro x hx
  simpa using (List.mem_filter.1 hx).2

/-- `schedule` puts a new task in the place of the one before, which is given up. -/
theorem schedule_eq (h : Sound d) (uri : Url) (delay : Nat) (job : α) :
    d.schedule uri delay job = (d.giveUp (· = uri)).spawn uri delay job := by
  rw [← h.cancel_eq]
  unfold schedule cancel
  cases hh : d.handle? uri with
  | none => rfl
  | some previous =>
    obtain ⟨t, ht, -, rfl, -⟩ := h.exists_of_handle? hh
    have hne : d.alarms ≠ t.ticket := Nat.ne_of_gt (h.issued t ht)
    simp [Debouncer.spawn, Debouncer.revoke, dropHandle, hne]

theorem schedule (h : Sound d) (uri : Url) (delay : Nat) (job : α) : Sound (d.schedule uri delay job) := by
  rw [h.schedule_eq]
  exact (h.giveUp _).spawn not_mem_giveUp delay job

/-- `clear` gives up every task, for each that was not given up before is behind some handle. -/
theorem clear_eq (h : Sound d) : d.clear = d.giveUp fun _ => true := by
  have htasks : d.tasks.map (fun t => if t.ticket ∈ d.handles.map (·.2) then t.revoke else t) =
      d.tasks.map (Task.revokeIf fun _ => true) := by
    refine List.map_congr_left fun t ht => ?_
    rw [Task.revokeIf, if_pos rfl]
    split
    · rfl
    · rename_i hfree
      cases hc : t.cancelled with
      | true => exact (h.revoke_of_cancelled ht hc).symm
      | false => exact absurd (List.mem_map_of_mem (h.kept t ht hc)) hfree
  unfold clear Debouncer.giveUp
  rw [foldl_revoke, htasks]
  simp

end Sound

/-! ## Tasks that were not given up -/

/-- The tasks that were not given up, apart from how far they are. -/
def held (d : Debouncer α) : List (Task α) :=
  (d.tasks.filter fun t => !t.cancelled).map Task.label

/-- The tickets of the tasks that were not given up and are yet to go to sleep, or wait for an alarm. -/
def armed (d : Debouncer α) : List Nat :=
  (d.tasks.filter fun t => !t.cancelled && t.phase.isArmed).map (·.ticket)

theorem mem_held {t : Task α} (ht : t ∈ d.tasks) (hc : t.cancelled = false) : t.label ∈ d.held :=
  List.mem_map_of_mem (List.mem_filter.2 ⟨ht, by simp [hc]⟩)

theorem mem_armed {t : Task α} {alarm : Alarm} (ht : t ∈ d.tasks) (hc : t.cancelled = false)
    (ha : t.phase.alarm? = some alarm) : t.ticket ∈ d.armed := by
  have harmed : t.phase.isArmed = true := by
    unfold Phase.isArmed
    split
    · rfl
    · rw [ha]; rfl
  exact List.mem_map_of_mem (List.mem_filter.2 ⟨ht, by simp [hc, harmed]⟩)

/-- A task that was not given up goes on when it is woken. -/
theorem Sound.exists_held (h : Sound d) {ticket : Nat} (hholds : d.holds ticket = true) :
    ∃ t ∈ d.held, t.ticket = ticket := by
  obtain ⟨t, ht, hticket⟩ := List.any_eq_true.1 hholds
  simp only [Bool.and_eq_true, decide_eq_true_eq, Bool.not_eq_true', h.aborted t ht] at hticket
  exact ⟨t.label, mem_held ht hticket.2, hticket.1⟩

theorem held_eq_of_labels (h : d'.tasks.map Task.label = d.tasks.map Task.label) : d'.held = d.held := by
  have heq : ∀ x : Debouncer α, x.held = (x.tasks.map Task.label).filter fun t => !t.cancelled := by
    intro x
    rw [List.filter_map]; rfl
  rw [heq, heq, h]

theorem held_giveUp (d : Debouncer α) (p : Url → Bool) : (d.giveUp p).held = d.held.filter fun t => !p t.uri := by
  unfold held giveUp
  induction d.tasks with
  | nil => rfl
  | cons t tasks ih =>
    cases hc : t.cancelled <;> cases hp : p t.uri <;> simp_all [Task.revokeIf, Task.revoke]

/-- What arms no task leaves of `armed` what was there. -/
theorem armed_sublist_of_map {f : Task α → Task α} (htasks : d'.tasks = d.tasks.map f)
    (hticket : ∀ t, (f t).ticket = t.ticket)
    (harmed : ∀ t, (f t).cancelled = false → (f t).phase.isArmed = true → t.cancelled = false ∧ t.phase.isArmed = true) :
    d'.armed.Sublist d.armed := by
  unfold armed
  rw [htasks, List.filter_map, List.map_map, show (fun t => Task.ticket t) ∘ f = Task.ticket from funext hticket]
  refine (List.monotone_filter_right _ fun t ht => ?_).map _
  simp only [Function.comp_apply, Bool.and_eq_true, Bool.not_eq_true'] at ht ⊢
  exact harmed t ht.1 ht.2

theorem armed_giveUp_sublist (d : Debouncer α) (p : Url → Bool) : (d.giveUp p).armed.Sublist d.armed := by
  refine armed_sublist_of_map rfl (Task.revokeIf_ticket p) fun t hkept harmed => ?_
  rw [Task.revokeIf_cancelled, Bool.or_eq_false_iff] at hkept
  rw [Task.revokeIf_phase] at harmed
  exact ⟨hkept.1, harmed⟩

theorem held_spawn (d : Debouncer α) (uri : Url) (delay : Nat) (job : α) :
    (d.spawn uri delay job).held = d.held ++ [⟨uri, d.alarms, job, .finished, false, false⟩] := by
  unfold held spawn
  rw [List.filter_append, List.map_append]; rfl

theorem armed_spawn (d : Debouncer α) (uri : Url) (delay : Nat) (job : α) :
    (d.spawn uri delay job).armed = d.armed ++ [d.alarms] := by
  unfold armed spawn
  rw [List.filter_append, List.map_append]; rfl

theorem labels_poll (d : Debouncer α) : d.poll.tasks.map Task.label = d.tasks.map Task.label := by
  unfold poll
  rw [List.map_map]
  exact List.map_congr_left fun t _ => t.label_poll d.now

/-- `poll` sets off alarms of tasks that are `armed` anyway. -/
theorem armed_poll_sublist (d : Debouncer α) : d.poll.armed.Sublist d.armed := by
  have hlabel := fun t : Task α => Task.of_label_eq (t.label_poll d.now)
  refine armed_sublist_of_map rfl (fun t => (hlabel t).2.1) fun t hkept harmed => ⟨(hlabel t).2.2.1 ▸ hkept, ?_⟩
  unfold Task.poll at harmed
  split at harmed
  · cases harmed
  · split at harmed
    · rename_i delay hphase
      rw [hphase]; rfl
    · exact harmed

theorem labels_setPhase (d : Debouncer α) (ticket : Nat) (phase : Phase) :
    (d.setPhase ticket phase).tasks.map Task.label = d.tasks.map Task.label := by
  unfold setPhase
  rw [List.map_map]
  refine List.map_congr_left fun t _ => ?_
  simp only [Function.comp_apply]
  split <;> rfl

/-- `setPhase` to a phase without an alarm takes a task from those that are `armed`. -/
theorem armed_setPhase (d : Debouncer α) (ticket : Nat) {phase : Phase} (h : phase.isArmed = false) :
    (d.setPhase ticket phase).armed = d.armed.filter fun n => n ≠ ticket := by
  unfold armed setPhase
  induction d.tasks with
  | nil => rfl
  | cons t tasks ih =>
    by_cases ht : t.ticket = ticket <;> cases hc : t.cancelled <;> cases ha : t.phase.isArmed <;>
      simp [ht, hc, ha, h, ih]

/-! ## Who is next -/

theorem foldl_first_mem (p : Alarm × Task α) (rest : List (Alarm × Task α)) : rest.foldl first p ∈ p :: rest := by
  induction rest generalizing p with
  | nil => exact List.mem_singleton_self p
  | cons q rest ih =>
    rcases List.mem_cons.1 (ih (first p q)) with h | h
    · rw [List.foldl_cons, h]
      unfold first
      split <;> simp
    · exact List.mem_cons_of_mem _ (List.mem_cons_of_mem _ h)

/-- The task that goes on next is one of `tasks`, and waits for its alarm. -/
theorem mem_of_next? {limit : Nat} {alarm : Alarm} {task : Task α} (h : d.next? limit = some (alarm, task)) :
    task ∈ d.tasks ∧ task.phase.alarm? = some alarm := by
  unfold next? first? at h
  have h := (Option.filter_eq_some_iff.1 h).1
  split at h
  · cases h
  · rename_i p rest hlist
    have hmem := foldl_first_mem p rest
    rw [Option.some.inj h, ← hlist] at hmem
    obtain ⟨t, ht, halarm⟩ := List.mem_filterMap.1 hmem
    obtain ⟨a, ha, heq⟩ := Option.map_eq_some_iff.1 halarm
    cases heq
    exact ⟨ht, ha⟩

end Debouncer

end EmbeddedMarkup
