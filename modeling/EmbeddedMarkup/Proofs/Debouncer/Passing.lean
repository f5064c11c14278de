/-
The passing of time for all tasks. However many there are and in whatever order `catchUp` goes on with them,
each comes by the end of the time to where it comes on its own, and leaves the notes that it leaves on its
own. The loop keeps this, since `next?` always takes the alarm that is due first: so the time never runs
ahead of an alarm. What a `step` of the debouncer does is then one equation for each task, in `Steps`.
-/
import EmbeddedMarkup.Proofs.Debouncer.Course
import Mathlib.Algebra.Order.BigOperators.Group.List

namespace EmbeddedMarkup.Debouncer

/-! ## One task going on -/

theorem isBefore_total {a b : Alarm} (h : b.isBefore a = false) : a.due ≤ b.due := by
  simp only [Alarm.isBefore, Bool.or_eq_false_iff, decide_eq_false_iff_not] at h
  omega

theorem foldl_first_le {α : Type} (p : Alarm × Task α) (rest : List (Alarm × Task α)) :
    ∀ q ∈ p :: rest, (rest.foldl first p).1.due ≤ q.1.due := by
  induction rest generalizing p with
  | nil => simp
  | cons r rest ih =>
    have hfirst : (first p r).1.due ≤ p.1.due ∧ (first p r).1.due ≤ r.1.due := by
      unfold first
      split
      · rename_i h
        simp only [Alarm.isBefore, Bool.or_eq_true, Bool.and_eq_true, decide_eq_true_eq] at h
        omega
      · rename_i h
        have := isBefore_total (by simpa using h)
        omega
    have hle := ih (first p r) (first p r) (List.mem_cons_self ..)
    intro q hq
    simp only [List.mem_cons] at hq
    rw [List.foldl_cons]
    rcases hq with rfl | rfl | hq
    · omega
    · omega
    · exact ih (first p r) q (List.mem_cons_of_mem _ hq)

theorem mem_alarms {α : Type} {d : Debouncer α} {t : Task α} {a : Alarm} (ht : t ∈ d.tasks)
    (ha : t.phase.alarm? = some a) : (a, t) ∈ d.tasks.filterMap fun t => t.phase.alarm?.map fun a => (a, t) :=
  List.mem_filterMap.2 ⟨t, ht, by rw [ha]; rfl⟩

theorem due_of_next? {α : Type} {d : Debouncer α} {limit : Nat} {alarm : Alarm} {task : Task α}
    (h : d.next? limit = some (alarm, task)) :
    alarm.due ≤ limit ∧ ∀ t ∈ d.tasks, ∀ a, t.phase.alarm? = some a → alarm.due ≤ a.due := by
  unfold next? first? at h
  obtain ⟨h, hdue⟩ := Option.filter_eq_some_iff.1 h
  refine ⟨by simpa using hdue, fun t ht a ha => ?_⟩
  have hmem := mem_alarms ht ha
  split at h
  · cases h
  · rename_i p rest hlist
    rw [hlist] at hmem
    have := foldl_first_le p rest _ hmem
    rw [Option.some.inj h] at this
    exact this

theorem lt_of_next?_eq_none {α : Type} {d : Debouncer α} {limit : Nat} (h : d.next? limit = none) :
    ∀ t ∈ d.tasks, ∀ a, t.phase.alarm? = some a → limit < a.due := by
  intro t ht a ha
  have hmem := mem_alarms ht ha
  unfold next? first? at h
  split at h
  · rename_i hnil
    rw [hnil] at hmem
    cases hmem
  · rename_i p rest hlist
    rw [hlist] at hmem
    have hle : (rest.foldl first p).1.due ≤ a.due := foldl_first_le p rest _ hmem
    have := Option.filter_eq_none_iff.1 h _ rfl
    simp only [decide_eq_true_eq] at this
    omega

/-- The times that a task in this phase goes on. -/
def turnsLeft : Phase → Nat
  | .waiting _ => 2
  | .sleeping _ => 1
  | _ => 0

/-- What it means that a task goes on: it does so at the moment of its alarm, leaves the first of its notes,
and comes to the same end. -/
structure GoesOn (d : Debouncer TimedJob) (a : Alarm) (t : Task TimedJob) (phase : Phase)
    (out : Debouncer TimedJob × List JobNote) : Prop where
  tasks : out.1.tasks = (d.setPhase t.ticket phase).tasks
  handles : out.1.handles = d.handles
  now : out.1.now = a.due
  alarms : d.alarms ≤ out.1.alarms
  own : ∀ n ∈ out.2, n.ticket = t.ticket
  turns : turnsLeft phase < turnsLeft t.phase
  due : ∀ b, phase.alarm? = some b → a.due ≤ b.due
  passed : ∀ limit, a.due ≤ limit → Task.passed limit { t with phase } = t.passed limit
  notes : ∀ limit, a.due ≤ limit → out.2 ++ Task.notesUntil limit { t with phase } = t.notesUntil limit

theorem goOn_spec {d : Debouncer TimedJob} {a : Alarm} {t : Task TimedJob} (ha : t.phase.alarm? = some a)
    (hkept : t.cancelled = false) (hnow : d.now ≤ a.due) : ∃ phase, GoesOn d a t phase (d.goOn a t) := by
  have hmax : max d.now a.due = a.due := Nat.max_eq_right hnow
  have hfinished : ∀ b, Phase.finished.alarm? = some b → a.due ≤ b.due := by rintro b ⟨⟩
  obtain ⟨uri, ticket, ⟨tag, length⟩, phase, cancelled, aborted⟩ := t
  cases hkept
  cases phase with
  | waiting x =>
    cases ha
    cases length with
    | none =>
      refine ⟨.finished, rfl, rfl, hmax, Nat.le_refl _, by simp [goOn], by simp [turnsLeft], hfinished,
        fun limit hlimit => ?_, fun limit hlimit => ?_⟩
      · have h1 : ¬ limit < a.due := by omega
        simp [Task.passed, Phase.passed, h1]
      · simp [goOn, setTime, hmax, Task.notesUntil, TimedJob.notes, hlimit]
    | some n =>
      refine ⟨.sleeping ⟨a.due + n, d.alarms⟩, ?_, rfl, hmax, Nat.le_succ _, by simp [goOn], by simp [turnsLeft], ?_,
        fun limit hlimit => ?_, fun limit hlimit => ?_⟩
      · simp [goOn, sleep, setTime, hmax, setPhase]
      · rintro b ⟨⟩
        simp
      · have h1 : ¬ limit < a.due := by omega
        simp [Task.passed, Phase.passed, h1]
      · simp [goOn, setTime, hmax, Task.notesUntil, TimedJob.notes, hlimit]
  | sleeping x =>
    cases ha
    refine ⟨.finished, rfl, rfl, hmax, Nat.le_refl _, by simp [goOn], by simp [turnsLeft], hfinished,
      fun limit hlimit => ?_, fun limit hlimit => ?_⟩
    · have h1 : ¬ limit < a.due := by omega
      simp [Task.passed, Phase.passed, h1]
    · simp [goOn, setTime, hmax, Task.notesUntil, hlimit]
  | spawned delay => cases ha
  | suspended => cases ha
  | finished => cases ha

/-! ## All tasks -/

/-- The invariant in the course of time: handles and tasks fit together, and no task should have gone on
before. -/
structure Orderly (d : Debouncer TimedJob) : Prop extends Sound d where
  due : ∀ t ∈ d.tasks, ∀ a, t.phase.alarm? = some a → d.now ≤ a.due

/-- The invariant of `catchUp`, behind a turn of the executor: no alarm is left that a task waits for which
was given up. -/
structure Awake (d : Debouncer TimedJob) : Prop extends Orderly d where
  dropped : ∀ t ∈ d.tasks, ∀ a, t.phase.alarm? = some a → t.cancelled = false

/-- Whether `d'` is `d` when the time has come to `limit`, with these notes left on the way: every task
is where it comes on its own, and has left what it leaves on its own. -/
structure Passes (d : Debouncer TimedJob) (limit : Nat) (d' : Debouncer TimedJob) (notes : List JobNote) :
    Prop where
  tasks : d'.tasks.map Task.plain = d.tasks.map (Task.passed limit)
  own : ∀ t ∈ d.tasks, notes.filter (fun n => n.ticket = t.ticket) = t.notesUntil limit
  held : ∀ n ∈ notes, ∃ t ∈ d.tasks, n.ticket = t.ticket
  handles : d'.handles = d.handles
  now : d'.now ≤ limit
  alarms : d.alarms ≤ d'.alarms

theorem Awake.goOn_spec {d : Debouncer TimedJob} (h : Awake d) {limit : Nat} {a : Alarm} {t : Task TimedJob}
    (hnext : d.next? limit = some (a, t)) : ∃ phase, GoesOn d a t phase (d.goOn a t) := by
  obtain ⟨ht, ha⟩ := mem_of_next? hnext
  exact Debouncer.goOn_spec ha (h.dropped t ht a ha) (h.due t ht a ha)

theorem Awake.goOn {d : Debouncer TimedJob} (h : Awake d) {limit : Nat} {a : Alarm} {t : Task TimedJob}
    (hnext : d.next? limit = some (a, t)) : Awake (d.goOn a t).1 := by
  obtain ⟨ht, ha⟩ := mem_of_next? hnext
  obtain ⟨phase, hgo⟩ := h.goOn_spec hnext
  have hlabels := hgo.tasks ▸ d.labels_setPhase t.ticket phase
  have hsound := h.toSound.of_labels hlabels hgo.handles hgo.alarms
  refine ⟨⟨hsound, fun x hx b hb => ?_⟩, fun x hx b hb => ?_⟩
  · rw [hgo.now]
    rw [hgo.tasks] at hx
    obtain ⟨y, hy, rfl⟩ := List.mem_map.1 hx
    split at hb
    · exact hgo.due b hb
    · -- the time is now that of the first alarm, so none of the others lies before it
      exact (due_of_next? hnext).2 y hy b hb
  · rw [hgo.tasks] at hx
    obtain ⟨y, hy, rfl⟩ := List.mem_map.1 hx
    split at hb
    · rename_i hticket
      rw [if_pos hticket]
      obtain rfl := h.eq_of_ticket ht hy hticket
      exact h.dropped y hy a ha
    · rename_i hticket
      rw [if_neg hticket]
      exact h.dropped y hy b hb

/-- The times that the tasks go on, all together. -/
def turns (d : Debouncer TimedJob) : Nat :=
  (d.tasks.map fun t => turnsLeft t.phase).sum

theorem turns_le (d : Debouncer TimedJob) : d.turns ≤ 2 * d.tasks.length := by
  unfold turns
  induction d.tasks with
  | nil => simp
  | cons t tasks ih =>
    have : turnsLeft t.phase ≤ 2 := by cases t.phase <;> simp [turnsLeft]
    simp only [List.map_cons, List.sum_cons, List.length_cons]
    omega

theorem turns_goOn {d : Debouncer TimedJob} (h : Awake d) {limit : Nat} {a : Alarm} {t : Task TimedJob}
    (hnext : d.next? limit = some (a, t)) : (d.goOn a t).1.turns < d.turns := by
  obtain ⟨ht, ha⟩ := mem_of_next? hnext
  obtain ⟨phase, hgo⟩ := h.goOn_spec hnext
  unfold turns
  rw [hgo.tasks, setPhase, List.map_map]
  refine List.sum_lt_sum _ _ (fun x hx => ?_) ⟨t, ht, by simpa using hgo.turns⟩
  simp only [Function.comp_apply]
  split
  · rename_i hticket
    rw [h.eq_of_ticket ht hx hticket]
    exact Nat.le_of_lt hgo.turns
  · exact Nat.le_refl _

theorem passes_of_lt {d : Debouncer TimedJob} {limit : Nat} (hnow : d.now ≤ limit)
    (h : ∀ t ∈ d.tasks, ∀ a, t.phase.alarm? = some a → limit < a.due) : Passes d limit d [] := by
  constructor
  · exact List.map_congr_left fun t ht => (Task.passed_of_lt (h t ht)).1.symm
  · exact fun t ht => (Task.passed_of_lt (h t ht)).2.symm
  · rintro n ⟨⟩
  · rfl
  · exact hnow
  · exact Nat.le_refl _

/-- A task that `GoesOn`, and then `Passes` for all tasks, is `Passes` from before. -/
theorem Passes.of_goOn {d d' : Debouncer TimedJob} (h : Awake d) {limit : Nat} {a : Alarm} {t : Task TimedJob}
    (hnext : d.next? limit = some (a, t)) {notes : List JobNote} (hrest : Passes (d.goOn a t).1 limit d' notes) :
    Passes d limit d' ((d.goOn a t).2 ++ notes) := by
  obtain ⟨ht, ha⟩ := mem_of_next? hnext
  obtain ⟨phase, hgo⟩ := h.goOn_spec hnext
  have hdue := (due_of_next? hnext).1
  have hmem : ∀ x ∈ d.tasks, (if x.ticket = t.ticket then { x with phase } else x) ∈ (d.goOn a t).1.tasks :=
    fun x hx => hgo.tasks ▸ List.mem_map_of_mem hx
  constructor
  · rw [hrest.tasks, hgo.tasks, setPhase, List.map_map]
    refine List.map_congr_left fun x hx => ?_
    simp only [Function.comp_apply]
    split
    · rename_i hx'
      rw [h.eq_of_ticket ht hx hx']
      exact hgo.passed limit hdue
    · rfl
  · intro x hx
    have hown := hrest.own _ (hmem x hx)
    rw [List.filter_append]
    by_cases hx' : x.ticket = t.ticket
    · obtain rfl := h.eq_of_ticket ht hx hx'
      rw [if_pos rfl] at hown
      rw [List.filter_eq_self.2 fun n hn => by simpa using hgo.own n hn, ← hgo.notes limit hdue, ← hown]
    · rw [if_neg hx'] at hown
      rw [List.filter_eq_nil_iff.2 fun n hn => by simpa [hgo.own n hn] using fun he => hx' he.symm, hown,
        List.nil_append]
  · intro n hn
    rcases List.mem_append.1 hn with hn | hn
    · exact ⟨t, ht, hgo.own n hn⟩
    · obtain ⟨y, hy, hny⟩ := hrest.held n hn
      rw [hgo.tasks] at hy
      obtain ⟨x, hx, rfl⟩ := List.mem_map.1 hy
      refine ⟨x, hx, hny.trans ?_⟩
      split <;> rfl
  · exact hrest.handles.trans hgo.handles
  · exact hrest.now
  · exact hgo.alarms.trans hrest.alarms

/-- `catchUp` lets every task pass, if it has as many `turns` as the tasks have left. -/
theorem passes_catchUp {limit count : Nat} {d : Debouncer TimedJob} (h : Awake d) (hnow : d.now ≤ limit)
    (hcount : d.turns ≤ count) : Passes d limit (catchUp limit count d).1 (catchUp limit count d).2 := by
  induction count generalizing d with
  | zero =>
    -- no turn is left, so no task waits for an alarm
    refine passes_of_lt hnow fun t ht a ha => ?_
    have hle : turnsLeft t.phase ≤ d.turns := List.single_le_sum (by simp) _ (List.mem_map_of_mem ht)
    have hzero : turnsLeft t.phase = 0 := by omega
    revert hzero ha
    cases t.phase <;> simp [turnsLeft, Phase.alarm?]
  | succ count ih =>
    rw [catchUp]
    cases hnext : d.next? limit with
    | none => exact passes_of_lt hnow (lt_of_next?_eq_none hnext)
    | some p =>
      obtain ⟨a, t⟩ := p
      obtain ⟨phase, hgo⟩ := h.goOn_spec hnext
      have hdue := (due_of_next? hnext).1
      have hturns := turns_goOn h hnext
      exact (ih (h.goOn hnext) (by rw [hgo.now]; exact hdue) (by omega)).of_goOn h hnext

/-! ## Operations -/

variable {d : Debouncer TimedJob}

/-- `poll` drops what was given up. -/
theorem Orderly.poll (h : Orderly d) : Awake d.poll := by
  refine ⟨⟨h.toSound.of_labels d.labels_poll rfl (Nat.le_refl _), fun t' ht' a ha => ?_⟩, fun t' ht' a ha => ?_⟩
  · obtain ⟨t, ht, rfl⟩ := List.mem_map.1 ht'
    rcases (Task.alarm?_poll ha).2 with ha | ha
    · exact h.due t ht a ha
    · exact ha
  · obtain ⟨t, ht, rfl⟩ := List.mem_map.1 ht'
    obtain ⟨-, -, hcancelled, -⟩ := Task.of_label_eq (t.label_poll d.now)
    rw [hcancelled, ← h.aborted t ht]
    exact (Task.alarm?_poll ha).1

/-- What an operation does, with the notes left meanwhile: each task becomes what `Task.after` says, and leaves
what `Task.notesIn` says. -/
structure Steps (d : Debouncer TimedJob) (op : Operation) (d' : Debouncer TimedJob) (notes : List JobNote) :
    Prop where
  tasks : d'.tasks.map Task.plain = (d.tasks.map (·.after d.now op) ++ op.spawned d.alarms).map Task.plain
  own : ∀ t ∈ d.tasks, notes.filter (fun n => n.ticket = t.ticket) = t.notesIn d.now op
  held : ∀ n ∈ notes, ∃ t ∈ d.tasks, n.ticket = t.ticket
  now : d'.now = d.now + op.time
  alarms : d.alarms + (op.spawned d.alarms).length ≤ d'.alarms

theorem Passes.exists_of_mem {d' : Debouncer TimedJob} {limit : Nat} {notes : List JobNote}
    (h : Passes d limit d' notes) {t' : Task TimedJob} (ht : t' ∈ d'.tasks) :
    ∃ t ∈ d.tasks, t'.plain = t.passed limit := by
  have hmem : t'.plain ∈ d.tasks.map (Task.passed limit) := h.tasks ▸ List.mem_map_of_mem ht
  obtain ⟨t, ht, he⟩ := List.mem_map.1 hmem
  exact ⟨t, ht, he.symm⟩

theorem Passes.labels {d' : Debouncer TimedJob} {limit : Nat} {notes : List JobNote} (h : Passes d limit d' notes) :
    d'.tasks.map Task.label = d.tasks.map Task.label := by
  have hmap := congrArg (List.map Task.label) h.tasks
  rwa [List.map_map, List.map_map] at hmap

theorem Orderly.passTo (h : Orderly d) (time : Nat) :
    Orderly (d.passTo (d.now + time)).1 ∧
      Steps d (.advance time) (d.passTo (d.now + time)).1 (d.passTo (d.now + time)).2 := by
  have hcount : d.poll.turns ≤ 2 * d.tasks.length := by
    have hle := d.poll.turns_le
    rwa [Debouncer.poll, List.length_map] at hle
  have hpass := passes_catchUp h.poll (Nat.le_add_right d.now time) hcount
  have hnow : (d.passTo (d.now + time)).1.now = d.now + time := Nat.max_eq_right hpass.now
  refine ⟨⟨?_, fun t' ht' a ha => ?_⟩, ?_, fun t ht => ?_, fun n hn => ?_, hnow, hpass.alarms⟩
  · exact h.toSound.of_labels (hpass.labels.trans d.labels_poll) hpass.handles hpass.alarms
  · obtain ⟨t, -, he⟩ := hpass.exists_of_mem ht'
    have hplain := t'.alarm?_plain
    rw [ha, he] at hplain
    have hlt := Task.lt_of_alarm?_passed hplain
    rw [hnow]
    exact Nat.le_of_lt hlt
  · rw [show (d.passTo (d.now + time)).1.tasks.map Task.plain = _ from hpass.tasks, Debouncer.poll,
      show (Operation.advance time).spawned d.alarms = [] from rfl, List.append_nil, List.map_map, List.map_map]
    exact List.map_congr_left fun t _ => (Task.plain_passed _ _).symm
  · have hticket : (t.poll d.now).ticket = t.ticket := (Task.of_label_eq (t.label_poll d.now)).2.1
    exact hticket ▸ hpass.own _ (List.mem_map_of_mem ht)
  · obtain ⟨t', ht', hn⟩ := hpass.held n hn
    obtain ⟨t, ht, rfl⟩ := List.mem_map.1 ht'
    exact ⟨t, ht, hn.trans (Task.of_label_eq (t.label_poll d.now)).2.1⟩

theorem Orderly.giveUp (h : Orderly d) (p : Url → Bool) : Orderly (d.giveUp p) := by
  refine ⟨h.toSound.giveUp p, fun t' ht' a ha => ?_⟩
  obtain ⟨t, ht, rfl⟩ := List.mem_map.1 ht'
  rw [Task.revokeIf_phase] at ha
  exact h.due t ht a ha

theorem Orderly.schedule (h : Orderly d) (uri : Url) (delay : Nat) (job : TimedJob) :
    Orderly (d.schedule uri delay job) := by
  refine ⟨h.toSound.schedule uri delay job, fun t ht a ha => ?_⟩
  rw [h.schedule_eq] at ht ⊢
  rcases List.mem_append.1 ht with ht | ht
  · exact (h.giveUp _).due t ht a ha
  · rw [List.mem_singleton.1 ht] at ha
    cases ha

/-- A call gives up the tasks of the documents that it is about, and may spawn one. -/
theorem Orderly.perform (h : Orderly d) {op : Operation} (hop : op.isAdvance = false) :
    Orderly (d.perform op).1 ∧
      (d.perform op).1.tasks = d.tasks.map (Task.revokeIf (op.givesUp ·)) ++ op.spawned d.alarms ∧
      (d.perform op).1.now = d.now ∧ (d.perform op).1.alarms = d.alarms + (op.spawned d.alarms).length := by
  cases op with
  | schedule uri delay job =>
    refine ⟨h.schedule uri delay job, ?_⟩
    show (d.schedule uri delay job).tasks = _ ∧ (d.schedule uri delay job).now = _ ∧
      (d.schedule uri delay job).alarms = _
    rw [h.schedule_eq]
    exact ⟨rfl, rfl, rfl⟩
  | cancel uri =>
    show Orderly (d.cancel uri).1 ∧ (d.cancel uri).1.tasks = _ ∧ (d.cancel uri).1.now = _ ∧ (d.cancel uri).1.alarms = _
    rw [h.cancel_eq]
    exact ⟨h.giveUp _, (List.append_nil _).symm, rfl, rfl⟩
  | isPending uri =>
    have hsame : d.tasks.map (Task.revokeIf fun _ => false) = d.tasks := List.map_id _
    exact ⟨h, hsame.symm.trans (List.append_nil _).symm, rfl, rfl⟩
  | advance time => cases hop
  | drop =>
    show Orderly d.clear ∧ d.clear.tasks = _ ∧ d.clear.now = _ ∧ d.clear.alarms = _
    rw [h.clear_eq]
    exact ⟨h.giveUp _, (List.append_nil _).symm, rfl, rfl⟩

theorem Orderly.step (h : Orderly d) (op : Operation) :
    Orderly (d.step op).1 ∧ Steps d op (d.step op).1 (d.step op).2.2 := by
  cases hop : op.isAdvance with
  | true =>
    cases op with
    | advance time => exact h.passTo time
    | _ => cases hop
  | false =>
    obtain ⟨horderly, htasks, hnow, halarms⟩ := h.perform hop
    have hstep : d.step op = ((d.perform op).1, (d.perform op).2, []) := by
      cases op with
      | advance time => cases hop
      | _ => rfl
    have hcall := fun t => Task.after_of_call hop d.now t
    rw [hstep]
    refine ⟨horderly, ?_, fun t _ => (hcall t).2.1.symm, fun n hn => (by cases hn), ?_, Nat.le_of_eq halarms.symm⟩
    · rw [htasks]
      simp only [fun t => (hcall t).1]
    · rw [hnow, (hcall default).2.2, Nat.add_zero]

end EmbeddedMarkup.Debouncer
