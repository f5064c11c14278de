/-
A `Debouncer` over its whole history. What becomes of a task can be read off the operations alone: it
starts at its deadline and goes on from there, up to the first operation that gives it up. A `Scheduling`
is a task in a history, and says so much of it. Operations on other documents have no part in this, and a
task that was given up is not heard of again, for its ticket is never issued a second time.
-/
import EmbeddedMarkup.Proofs.Debouncer.Passing
import Mathlib.Data.List.Induction
import Mathlib.Data.List.TakeWhile

namespace EmbeddedMarkup.Debouncer

/-! ## Histories -/

/-- The notes that one task leaves in the course of operations. -/
def notesOf (d : Debouncer TimedJob) (ops : List Operation) (ticket : Nat) : List JobNote :=
  ((d.run ops).2.flatMap (·.2)).filter fun n => n.ticket = ticket

/-- Whether an operation is one on a document, or one that is on none. -/
def Operation.isAbout (uri : Url) : Operation → Bool
  | schedule u _ _ => uri = u
  | cancel u => uri = u
  | isPending u => uri = u
  | advance _ => true
  | drop => true

/-- A task in a history: the operations before it was scheduled, and those since. -/
structure Scheduling where
  before : List Operation
  uri : Url
  delay : Nat
  job : TimedJob
  since : List Operation

namespace Scheduling

def ops (e : Scheduling) : List Operation :=
  e.before ++ .schedule e.uri e.delay e.job :: e.since

def ticket (e : Scheduling) : Nat :=
  (run {} e.before).1.alarms

/-- The moment for which the task is scheduled. -/
def deadline (e : Scheduling) : Nat :=
  clock e.before + e.delay

/-- Whether the task was neither replaced nor cancelled, nor the debouncer dropped. -/
def IsKept (e : Scheduling) : Prop :=
  ∀ op ∈ e.since, op.givesUp e.uri = false

/-- The operations `since`, up to the first that gives the task up. -/
def kept (e : Scheduling) : List Operation :=
  e.since.takeWhile fun op => !op.givesUp e.uri

/-- The moment up to which the task was kept. -/
def keptUntil (e : Scheduling) : Nat :=
  clock e.before + clock e.kept

/-- Whether the executor had a turn, by an `advance`, while the task was `kept`. -/
def hasTurn (e : Scheduling) : Bool :=
  e.kept.any (·.isAdvance)

/-- The moment at which the task is done, if it is kept until then. -/
def finish (e : Scheduling) : Nat :=
  e.deadline + e.job.length.getD 0

/-- The task as it was spawned. -/
def task (e : Scheduling) : Task TimedJob :=
  { uri := e.uri, ticket := e.ticket, job := e.job, phase := .spawned e.delay }

/-- How far the task is in the end, if it is kept. -/
def phase (e : Scheduling) : Phase :=
  if e.hasTurn then (Phase.waiting ⟨e.deadline, e.ticket⟩).passed e.job.length (clock e.ops) else .spawned e.delay

/-- The same without the operations on other documents. -/
def alone (e : Scheduling) : Scheduling :=
  { e with before := e.before.filter (·.isAbout e.uri), since := e.since.filter (·.isAbout e.uri) }

end Scheduling

/-! ## Runs -/

theorem run_cons (d : Debouncer TimedJob) (op : Operation) (ops : List Operation) :
    d.run (op :: ops) = (((d.step op).1.run ops).1, (d.step op).2 :: ((d.step op).1.run ops).2) := rfl

theorem run_append (d : Debouncer TimedJob) (a b : List Operation) :
    d.run (a ++ b) = (((d.run a).1.run b).1, (d.run a).2 ++ ((d.run a).1.run b).2) := by
  induction a generalizing d with
  | nil => rfl
  | cons op a ih => rw [List.cons_append, run_cons, ih, run_cons]; rfl

theorem notesOf_cons (d : Debouncer TimedJob) (op : Operation) (ops : List Operation) (ticket : Nat) :
    d.notesOf (op :: ops) ticket =
      ((d.step op).2.2.filter fun n => n.ticket = ticket) ++ (d.step op).1.notesOf ops ticket := by
  unfold notesOf
  rw [run_cons, List.flatMap_cons, List.filter_append]

theorem notesOf_append (d : Debouncer TimedJob) (a b : List Operation) (ticket : Nat) :
    d.notesOf (a ++ b) ticket = d.notesOf a ticket ++ (d.run a).1.notesOf b ticket := by
  unfold notesOf
  rw [run_append, List.flatMap_append, List.filter_append]

theorem Orderly.run {d : Debouncer TimedJob} (h : Orderly d) (ops : List Operation) :
    Orderly (d.run ops).1 ∧ (d.run ops).1.now = d.now + clock ops ∧ d.alarms ≤ (d.run ops).1.alarms := by
  induction ops generalizing d with
  | nil => exact ⟨h, rfl, Nat.le_refl _⟩
  | cons op ops ih =>
    obtain ⟨horderly, hstep⟩ := h.step op
    obtain ⟨horderly, hnow, hle⟩ := ih horderly
    rw [run_cons, clock_cons]
    refine ⟨horderly, by rw [hnow, hstep.now, Nat.add_assoc], ?_⟩
    have halarms := hstep.alarms
    simp only
    omega

/-- A debouncer is `Orderly` after any operations, and its time is that of the `clock`. -/
theorem run_orderly (ops : List Operation) : Orderly (run {} ops).1 ∧ (run {} ops).1.now = clock ops := by
  have hempty : Orderly {} := ⟨.empty, fun t ht => by cases ht⟩
  obtain ⟨horderly, hnow, -⟩ := hempty.run ops
  exact ⟨horderly, hnow.trans (Nat.zero_add _)⟩

/-- Over a `run` a task becomes what `afterAll` makes of it, and leaves the notes of `notesAlong`. -/
theorem Orderly.run_of_mem {d : Debouncer TimedJob} (h : Orderly d) {t : Task TimedJob} (ht : t ∈ d.tasks)
    (ops : List Operation) :
    (∃ t' ∈ (d.run ops).1.tasks, t'.plain = (t.afterAll d.now ops).plain) ∧
      d.notesOf ops t.ticket = t.notesAlong d.now ops := by
  induction ops generalizing d t with
  | nil => exact ⟨⟨t, ht, rfl⟩, rfl⟩
  | cons op ops ih =>
    obtain ⟨horderly, hstep⟩ := h.step op
    have hmem : (t.after d.now op).plain ∈ (d.step op).1.tasks.map Task.plain := by
      rw [hstep.tasks, List.map_append, List.map_map]
      exact List.mem_append_left _ (List.mem_map_of_mem ht)
    obtain ⟨t₁, ht₁, hplain⟩ := List.mem_map.1 hmem
    obtain ⟨⟨t', ht', hplain'⟩, hnotes⟩ := ih horderly ht₁
    have hticket : t₁.ticket = t.ticket := by
      have hsame : t₁.plain.ticket = (t.after d.now op).plain.ticket := by rw [hplain]
      exact hsame.trans (t.after_frame d.now op).2.1
    obtain ⟨hlast, hmore⟩ := Task.afterAll_congr hplain (d.now + op.time) ops
    rw [hstep.now] at hplain' hnotes
    rw [run_cons, notesOf_cons]
    refine ⟨⟨t', ht', hplain'.trans hlast⟩, ?_⟩
    rw [hstep.own t ht, ← hticket, hnotes, hmore]; rfl

/-- A task is not heard of before its ticket is issued. -/
theorem Orderly.notesOf_of_not_issued {d : Debouncer TimedJob} (h : Orderly d) {ops : List Operation} {ticket : Nat}
    (ht : (d.run ops).1.alarms ≤ ticket) : d.notesOf ops ticket = [] := by
  induction ops generalizing d with
  | nil => rfl
  | cons op ops ih =>
    obtain ⟨horderly, hstep⟩ := h.step op
    obtain ⟨-, -, hle⟩ := horderly.run ops
    rw [run_cons] at ht
    simp only at ht
    rw [notesOf_cons, ih horderly ht, List.append_nil, List.filter_eq_nil_iff]
    intro n hn he
    obtain ⟨t, hmem, hticket⟩ := hstep.held n hn
    have hissued := h.issued t hmem
    have halarms := hstep.alarms
    have he : n.ticket = ticket := by simpa using he
    omega

/-! ## All tasks in a run -/

namespace Scheduling

/-- The task in the end, as `afterAll` makes it on its own. -/
def last (e : Scheduling) : Task TimedJob :=
  e.task.afterAll (clock e.before) e.since

/-- Every task that is scheduled is there in the end, and has left the notes that it leaves on its own. -/
theorem run_ops (e : Scheduling) :
    (∃ t ∈ (run {} e.ops).1.tasks, t.plain = e.last.plain) ∧
      notesOf {} e.ops e.ticket = e.task.notesAlong (clock e.before) e.since := by
  obtain ⟨horderly, hnow⟩ := run_orderly e.before
  obtain ⟨horderly', hstep⟩ := horderly.step (.schedule e.uri e.delay e.job)
  have hbefore : notesOf {} e.before e.ticket = [] := (run_orderly []).1.notesOf_of_not_issued (Nat.le_refl _)
  have hmem : e.task.plain ∈ ((run {} e.before).1.step (.schedule e.uri e.delay e.job)).1.tasks.map Task.plain := by
    rw [hstep.tasks, List.map_append]
    exact List.mem_append_right _ (List.mem_singleton_self _)
  obtain ⟨t, ht, hplain⟩ := List.mem_map.1 hmem
  have hticket : t.ticket = e.ticket := by
    have hsame : t.plain.ticket = e.task.plain.ticket := by rw [hplain]
    exact hsame
  obtain ⟨⟨t', ht', hplain'⟩, hnotes⟩ := horderly'.run_of_mem ht e.since
  have hnow' : ((run {} e.before).1.step (.schedule e.uri e.delay e.job)).1.now = clock e.before :=
    hstep.now.trans hnow
  obtain ⟨hlast, hmore⟩ := Task.afterAll_congr hplain (clock e.before) e.since
  rw [hnow'] at hplain' hnotes
  constructor
  · refine ⟨t', ?_, hplain'.trans hlast⟩
    rw [ops, run_append, run_cons]
    exact ht'
  · rw [ops, notesOf_append, hbefore, List.nil_append, notesOf_cons, ← hmore, ← hnotes, hticket]
    rfl

/-! ### What becomes of one task -/

theorem since_eq (e : Scheduling) : e.since = e.kept ++ e.since.dropWhile fun op => !op.givesUp e.uri :=
  List.takeWhile_append_dropWhile.symm

theorem givesUp_of_mem_kept (e : Scheduling) : ∀ op ∈ e.kept, op.givesUp e.uri = false := by
  intro op hop
  simpa using List.mem_takeWhile_imp hop

theorem IsKept.kept_eq {e : Scheduling} (h : e.IsKept) : e.kept = e.since :=
  List.takeWhile_eq_self_iff.2 fun op hop => by simp [h op hop]

theorem clock_ops (e : Scheduling) : clock e.ops = clock e.before + clock e.since := by
  simp [ops, Operation.time]

/-- Where time has passed the executor had a turn, so this is in question only for a task without delay. -/
theorem hasTurn_of_le {e : Scheduling} (hdelay : 0 < e.delay) (h : e.deadline ≤ e.keptUntil) : e.hasTurn = true := by
  have hclock : 0 < clock e.kept := by
    unfold deadline keptUntil at h
    omega
  by_contra hturn
  have htimes : ∀ op ∈ e.kept, op.time = 0 := by
    intro op hop
    have hcall : op.isAdvance = false := by
      cases hadvance : op.isAdvance with
      | true => exact absurd (List.any_eq_true.2 ⟨op, hop, hadvance⟩) hturn
      | false => rfl
    exact (Task.after_of_call hcall 0 default).2.2
  have hzero : clock e.kept = 0 := List.sum_eq_zero fun n hn => by
    obtain ⟨op, hop, rfl⟩ := List.mem_map.1 hn
    exact htimes op hop
  omega

/-- The notes of a task are those that it leaves on its own as long as it is kept, if it has a turn. -/
theorem notesOf_ops (e : Scheduling) :
    notesOf {} e.ops e.ticket =
      if e.hasTurn then e.job.notes e.ticket e.deadline e.keptUntil else [] := by
  have hgiven : (e.task.afterAll (clock e.before) e.kept).notesAlong (clock e.before + clock e.kept)
      (e.since.dropWhile fun op => !op.givesUp e.uri) = [] := by
    cases hdrop : e.since.dropWhile fun op => !op.givesUp e.uri with
    | nil => rfl
    | cons op rest =>
      have hgives : op.givesUp e.uri = true := by
        have := List.dropWhile_get_zero_not (fun op : Operation => !op.givesUp e.uri) e.since (by simp [hdrop])
        simpa [hdrop] using this
      have hcall : op.isAdvance = false := by
        cases op with
        | advance time => cases hgives
        | _ => rfl
      obtain ⟨huri, -⟩ := e.task.afterAll_frame (clock e.before) e.kept
      -- the operation that gives the task up leaves it to be dropped
      obtain ⟨-, hnotes, -⟩ := Task.after_of_call hcall (clock e.before + clock e.kept)
        (e.task.afterAll (clock e.before) e.kept)
      rw [Task.notesAlong, hnotes, List.nil_append]
      refine Task.notesAlong_of_aborted ?_ _ _
      rw [(Task.after_frame _ _ op).2.2.2.2, huri, show e.task.uri = e.uri from rfl, hgives, Bool.or_true]
  rw [e.run_ops.2, e.since_eq, Task.notesAlong_append, hgiven, List.append_nil,
    (Task.afterAll_of_spawned _ rfl rfl e.givesUp_of_mem_kept).2]
  rfl

/-- A task that `IsKept` is in its `phase`. -/
theorem IsKept.phase_last {e : Scheduling} (h : e.IsKept) : e.last.plain.phase = e.phase := by
  have hlast := (Task.afterAll_of_spawned (t := e.task) (clock e.before) rfl rfl h).1
  unfold last phase
  rw [hlast, hasTurn, h.kept_eq, e.clock_ops]
  split <;> rfl

theorem cancelled_last (e : Scheduling) : e.last.cancelled = false ↔ e.IsKept := by
  obtain ⟨-, -, -, hcancelled, -⟩ := e.task.afterAll_frame (clock e.before) e.since
  rw [last, hcancelled]
  simp [task, IsKept]

/-- Whether the task is done in the end, if it is kept. -/
def IsDone (e : Scheduling) : Prop :=
  e.hasTurn = true ∧ e.finish ≤ clock e.ops

theorem phase_eq_finished_iff (e : Scheduling) : e.phase = .finished ↔ e.IsDone := by
  unfold phase IsDone finish
  cases e.hasTurn with
  | false => simp
  | true =>
    simp only [Phase.passed, if_true, true_and]
    by_cases h1 : clock e.ops < e.deadline
    · have h2 : ¬ e.deadline + e.job.length.getD 0 ≤ clock e.ops := by omega
      simp [h1, h2]
    · by_cases h2 : clock e.ops < e.deadline + e.job.length.getD 0
      · simp [h1, h2]
      · simp [h1, h2, Nat.not_lt.1 h2]

def snoc (e : Scheduling) (op : Operation) : Scheduling :=
  { e with since := e.since ++ [op] }

theorem ops_snoc (e : Scheduling) (op : Operation) : (e.snoc op).ops = e.ops ++ [op] := by
  simp [snoc, ops]

theorem last_snoc (e : Scheduling) (op : Operation) : (e.snoc op).last = e.last.after (clock e.ops) op := by
  rw [e.clock_ops]
  exact Task.afterAll_append ..

end Scheduling

/-- Every task was scheduled, and is where it comes on its own. -/
theorem exists_scheduling {ops : List Operation} {t : Task TimedJob} (ht : t ∈ (run {} ops).1.tasks) :
    ∃ e : Scheduling, e.ops = ops ∧ t.plain = e.last.plain := by
  induction ops using List.reverseRecOn generalizing t with
  | nil => cases ht
  | append_singleton ops op ih =>
    obtain ⟨horderly, hnow⟩ := run_orderly ops
    obtain ⟨-, hstep⟩ := horderly.step op
    rw [run_append] at ht
    have hmem : t.plain ∈ ((run {} ops).1.step op).1.tasks.map Task.plain := List.mem_map_of_mem ht
    rw [hstep.tasks, hnow, List.map_append, List.map_map] at hmem
    -- the task was there before, or the last operation spawned it
    rcases List.mem_append.1 hmem with hmem | hmem
    · obtain ⟨t₀, ht₀, hplain⟩ := List.mem_map.1 hmem
      obtain ⟨e, rfl, hplain₀⟩ := ih ht₀
      refine ⟨e.snoc op, e.ops_snoc op, ?_⟩
      rw [e.last_snoc, ← hplain, Function.comp_apply, ← Task.after_plain, hplain₀, Task.after_plain]
    · cases op with
      | schedule uri delay job =>
        obtain ⟨t₀, ht₀, hplain⟩ := List.mem_map.1 hmem
        obtain rfl := List.mem_singleton.1 ht₀
        exact ⟨⟨ops, uri, delay, job, []⟩, rfl, hplain.symm⟩
      | _ => cases hmem

/-- What is known of a task from how it was scheduled. -/
theorem Scheduling.of_plain_eq {e : Scheduling} {t : Task TimedJob} (h : t.plain = e.last.plain) :
    t.uri = e.uri ∧ t.ticket = e.ticket ∧ t.job = e.job ∧ (t.cancelled = false ↔ e.IsKept) ∧
      (e.IsKept → t.phase.plain = e.phase) := by
  obtain ⟨huri, hticket, hjob, -⟩ := e.task.afterAll_frame (clock e.before) e.since
  have hcancelled : t.plain.cancelled = e.last.plain.cancelled := by rw [h]
  refine ⟨?_, ?_, ?_, ?_, fun hkept => ?_⟩
  · exact (congrArg Task.uri h).trans huri
  · exact (congrArg Task.ticket h).trans hticket
  · exact (congrArg Task.job h).trans hjob
  · rw [← e.cancelled_last]
    exact Eq.congr_left hcancelled
  · exact (congrArg Task.phase h).trans hkept.phase_last

/-- Every note is that of a task that was scheduled. -/
theorem exists_scheduling_of_note {ops : List Operation} {n : JobNote} (hn : n ∈ (run {} ops).2.flatMap (·.2)) :
    ∃ e : Scheduling, e.ops = ops ∧ n.ticket = e.ticket := by
  induction ops using List.reverseRecOn with
  | nil => cases hn
  | append_singleton ops op ih =>
    rw [run_append, List.flatMap_append] at hn
    rcases List.mem_append.1 hn with hn | hn
    · obtain ⟨e, hops, hticket⟩ := ih hn
      exact ⟨e.snoc op, by rw [e.ops_snoc, hops], hticket⟩
    · obtain ⟨horderly, -⟩ := run_orderly ops
      obtain ⟨-, hstep⟩ := horderly.step op
      have hn : n ∈ ((run {} ops).1.step op).2.2 := by simpa [run] using hn
      obtain ⟨t, ht, hnt⟩ := hstep.held n hn
      obtain ⟨e, rfl, hplain⟩ := exists_scheduling ht
      exact ⟨e.snoc op, e.ops_snoc op, hnt.trans (Scheduling.of_plain_eq hplain).2.1⟩

/-- The task scheduled later has the larger ticket. -/
theorem ticket_lt (before between : List Operation) (uri : Url) (delay : Nat) (job : TimedJob) :
    (run {} before).1.alarms < (run {} (before ++ .schedule uri delay job :: between)).1.alarms := by
  obtain ⟨horderly, -⟩ := run_orderly before
  obtain ⟨horderly', hstep⟩ := horderly.step (.schedule uri delay job)
  obtain ⟨-, -, hle⟩ := horderly'.run between
  have halarms : (run {} before).1.alarms + 1 ≤ _ := hstep.alarms
  rw [run_append, run_cons]
  simp only
  omega

theorem Scheduling.eq_of_ticket_eq {e e' : Scheduling} (hops : e.ops = e'.ops) (hticket : e.ticket = e'.ticket) :
    e = e' := by
  obtain ⟨before, uri, delay, job, since⟩ := e
  obtain ⟨before', uri', delay', job', since'⟩ := e'
  simp only [Scheduling.ops, Scheduling.ticket] at hops hticket
  -- if the two are not the same, one was scheduled before the other
  rcases List.append_eq_append_iff.1 hops with ⟨between, rfl, hrest⟩ | ⟨between, rfl, hrest⟩
  · cases between with
    | nil =>
      simp only [List.nil_append, List.cons.injEq, Operation.schedule.injEq] at hrest
      simp [hrest]
    | cons op between =>
      obtain ⟨rfl, -⟩ := List.cons.inj hrest
      exact absurd hticket (Nat.ne_of_lt (ticket_lt ..))
  · cases between with
    | nil =>
      simp only [List.nil_append, List.cons.injEq, Operation.schedule.injEq] at hrest
      simp [hrest]
    | cons op between =>
      obtain ⟨rfl, -⟩ := List.cons.inj hrest
      exact absurd hticket.symm (Nat.ne_of_lt (ticket_lt ..))

/-! ## Answers -/

/-- The answer to `cancel` is that to `isPending`. -/
theorem cancel_answer (d : Debouncer TimedJob) (uri : Url) : (d.cancel uri).2 = d.isPending uri := by
  unfold cancel isPending
  cases d.handle? uri <;> rfl

theorem Sound.isPending_iff {d : Debouncer TimedJob} (h : Sound d) (uri : Url) :
    d.isPending uri = true ↔ ∃ t ∈ d.tasks, t.uri = uri ∧ t.cancelled = false ∧ t.phase ≠ .finished := by
  simp only [isPending, isUnfinished, Option.any_eq_true, List.any_eq_true, Bool.and_eq_true, decide_eq_true_eq]
  constructor
  · rintro ⟨ticket, hhandle, t, ht, rfl, hphase⟩
    obtain ⟨huri, hkept⟩ := (h.handle?_iff ht).1 hhandle
    exact ⟨t, ht, huri, hkept, hphase⟩
  · rintro ⟨t, ht, huri, hkept, hphase⟩
    exact ⟨t.ticket, (h.handle?_iff ht).2 ⟨huri, hkept⟩, t, ht, rfl, hphase⟩

theorem Scheduling.phase_ne_finished_iff {e : Scheduling} {t : Task TimedJob} (h : t.plain = e.last.plain)
    (hkept : e.IsKept) : t.phase ≠ .finished ↔ ¬ e.IsDone := by
  have hphase := (of_plain_eq h).2.2.2.2 hkept
  rw [← e.phase_eq_finished_iff, ← hphase]
  cases t.phase <;> simp [Phase.plain]

theorem isPending_run_iff (ops : List Operation) (uri : Url) :
    (run {} ops).1.isPending uri = true ↔
      ∃ e : Scheduling, e.ops = ops ∧ e.uri = uri ∧ e.IsKept ∧ ¬ e.IsDone := by
  rw [(run_orderly ops).1.isPending_iff]
  constructor
  · rintro ⟨t, ht, huri, hcancelled, hphase⟩
    obtain ⟨e, hops, hplain⟩ := exists_scheduling ht
    obtain ⟨huri', -, -, hkept, -⟩ := Scheduling.of_plain_eq hplain
    have hkept := hkept.1 hcancelled
    exact ⟨e, hops, huri'.symm.trans huri, hkept, (Scheduling.phase_ne_finished_iff hplain hkept).1 hphase⟩
  · rintro ⟨e, rfl, rfl, hkept, hdone⟩
    obtain ⟨⟨t, ht, hplain⟩, -⟩ := e.run_ops
    obtain ⟨huri, -, -, hcancelled, -⟩ := Scheduling.of_plain_eq hplain
    exact ⟨t, ht, huri, hcancelled.2 hkept, (Scheduling.phase_ne_finished_iff hplain hkept).2 hdone⟩

/-! ## Other documents -/

theorem Operation.time_eq_zero {uri : Url} {op : Operation} (h : op.isAbout uri = false) :
    op.time = 0 ∧ op.givesUp uri = false := by
  cases op <;> simp_all [Operation.isAbout, Operation.time, Operation.givesUp]

theorem clock_filter (uri : Url) (ops : List Operation) : clock (ops.filter (·.isAbout uri)) = clock ops := by
  induction ops with
  | nil => rfl
  | cons op ops ih =>
    cases h : op.isAbout uri with
    | true => rw [List.filter_cons_of_pos h, clock_cons, clock_cons, ih]
    | false => rw [List.filter_cons_of_neg (by simp [h]), clock_cons, (op.time_eq_zero h).1, Nat.zero_add, ih]

/-- An operation that gives a task up `isAbout` its document, so the others are in no one's way. -/
theorem Scheduling.kept_alone (e : Scheduling) : e.alone.kept = e.kept.filter (·.isAbout e.uri) := by
  show (e.since.filter _).takeWhile _ = (e.since.takeWhile _).filter _
  induction e.since with
  | nil => rfl
  | cons op ops ih =>
    cases h : op.isAbout e.uri with
    | true =>
      rw [List.filter_cons_of_pos h, List.takeWhile_cons, List.takeWhile_cons]
      show (if (!op.givesUp e.uri) = true then _ else _) = _
      split
      · rw [List.filter_cons_of_pos h]
        exact congrArg _ ih
      · rfl
    | false =>
      obtain ⟨-, hgives⟩ := op.time_eq_zero h
      rw [List.filter_cons_of_neg (by simp [h]), List.takeWhile_cons_of_pos (by simp [hgives]),
        List.filter_cons_of_neg (by simp [h])]
      exact ih

theorem Scheduling.alone_moments (e : Scheduling) :
    e.alone.deadline = e.deadline ∧ e.alone.keptUntil = e.keptUntil ∧ e.alone.hasTurn = e.hasTurn := by
  have hturn : (e.kept.filter (·.isAbout e.uri)).any (·.isAdvance) = e.kept.any (·.isAdvance) := by
    rw [List.any_filter]
    congr 1
    funext op
    cases op <;> simp [Operation.isAbout, Operation.isAdvance]
  refine ⟨?_, ?_, ?_⟩
  · rw [deadline, deadline, alone, clock_filter]
  · rw [keptUntil, keptUntil, e.kept_alone, clock_filter, alone, clock_filter]
  · rw [hasTurn, hasTurn, e.kept_alone, hturn]

/-- A note without the number of the task. -/
def JobNote.unnumbered (n : JobNote) : JobNote :=
  { n with ticket := 0 }

theorem map_unnumbered_notes (job : TimedJob) (ticket start now : Nat) :
    (job.notes ticket start now).map JobNote.unnumbered = job.notes 0 start now := by
  rcases job with ⟨tag, _ | n⟩
  · by_cases h : start ≤ now <;> simp [TimedJob.notes, JobNote.unnumbered, h]
  · by_cases h : start ≤ now <;> by_cases h' : start + n ≤ now <;>
      simp [TimedJob.notes, JobNote.unnumbered, h, h']

/-- Operations on other documents have no part in the notes of a task. -/
theorem notesOf_alone (e : Scheduling) :
    (notesOf {} e.alone.ops e.alone.ticket).map JobNote.unnumbered =
      (notesOf {} e.ops e.ticket).map JobNote.unnumbered := by
  obtain ⟨hdeadline, hkept, hturn⟩ := e.alone_moments
  rw [e.alone.notesOf_ops, e.notesOf_ops, hdeadline, hkept, hturn]
  split
  · rw [map_unnumbered_notes, map_unnumbered_notes]; rfl
  · rfl

/-! ## The whole history -/

/-- Each document has one slot. After any operations at most one of its tasks was not given up, and that is
the one scheduled last: it is behind the handle, and in the `phase` to which it comes on its own; the executor
drops just the tasks that were given up. Every note is that of one task that was scheduled. The task starts
once, at its `deadline`, if it is kept until then and the executor has a turn, as it has whenever time passes;
it ends if it is kept until its `finish`; and it leaves no other note. It would leave the same notes `alone`,
without the operations on other documents. Asked by `isPending` whether the task of a document is pending, or
told to `cancel` it, the debouncer answers whether the task scheduled last `IsKept` and is not yet done. -/
theorem one_slot_for_each_document (ops : List Operation) :
    (∀ uri, ((run {} ops).1.tasks.filter fun t => t.uri = uri && !t.cancelled).length ≤ 1) ∧
      (∀ t ∈ (run {} ops).1.tasks, t.aborted = t.cancelled ∧
        ∃ e : Scheduling, e.ops = ops ∧ t.uri = e.uri ∧ t.ticket = e.ticket ∧ t.job = e.job ∧
          (t.cancelled = false ↔ e.IsKept) ∧
          (e.IsKept → (run {} ops).1.handle? e.uri = some e.ticket ∧ t.phase.plain = e.phase)) ∧
      (∀ n ∈ (run {} ops).2.flatMap (·.2), ∃ e : Scheduling, e.ops = ops ∧ n.ticket = e.ticket) ∧
      (∀ e e' : Scheduling, e.ops = ops → e'.ops = ops → e.ticket = e'.ticket → e = e') ∧
      (∀ e : Scheduling, e.ops = ops →
        (∃ t ∈ (run {} ops).1.tasks, t.ticket = e.ticket) ∧
        notesOf {} ops e.ticket = (if e.hasTurn then e.job.notes e.ticket e.deadline e.keptUntil else []) ∧
        (0 < e.delay → e.deadline ≤ e.keptUntil → e.hasTurn = true) ∧
          (notesOf {} e.alone.ops e.alone.ticket).map JobNote.unnumbered =
            (notesOf {} ops e.ticket).map JobNote.unnumbered) ∧
      ∀ uri, ∃ pending, ((run {} ops).1.step (.isPending uri)).2.1 = some pending ∧
        ((run {} ops).1.step (.cancel uri)).2.1 = some pending ∧
        (pending = true ↔ ∃ e : Scheduling, e.ops = ops ∧ e.uri = uri ∧ e.IsKept ∧ ¬ e.IsDone) := by
  obtain ⟨horderly, -⟩ := run_orderly ops
  refine ⟨fun uri => ?_, fun t ht => ⟨horderly.aborted t ht, ?_⟩, ?_, ?_, ?_, fun uri => ?_⟩
  · refine Keyed.length_filter_le_one Task.ticket (k := ((run {} ops).1.handle? uri).getD 0) horderly.tickets
      fun t ht hp => ?_
    simp only [Bool.and_eq_true, decide_eq_true_eq, Bool.not_eq_true'] at hp
    rw [(horderly.handle?_iff ht).2 hp]; rfl
  · obtain ⟨e, hops, hplain⟩ := exists_scheduling ht
    obtain ⟨huri, hticket, hjob, hcancelled, hphase⟩ := Scheduling.of_plain_eq hplain
    refine ⟨e, hops, huri, hticket, hjob, hcancelled, fun hkept => ⟨?_, hphase hkept⟩⟩
    rw [← hticket]
    exact (horderly.handle?_iff ht).2 ⟨huri, hcancelled.2 hkept⟩
  · exact fun n hn => exists_scheduling_of_note hn
  · rintro e e' rfl he' hticket
    exact Scheduling.eq_of_ticket_eq he'.symm hticket
  · rintro e rfl
    obtain ⟨⟨t, ht, hplain⟩, -⟩ := e.run_ops
    exact ⟨⟨t, ht, (Scheduling.of_plain_eq hplain).2.1⟩, e.notesOf_ops, Scheduling.hasTurn_of_le, notesOf_alone e⟩
  · exact ⟨_, rfl, congrArg some (cancel_answer ..), isPending_run_iff ops uri⟩

/-- A task under way that is replaced, while another document has its own. A task that is replaced before the
executor has a turn does not start, be its delay what it may. -/
theorem one_slot_for_each_document_replaced :
    let a : Url := { scheme := ['f', 'i', 'l', 'e'], host := some [], path := ['/', 'a'] }
    let b : Url := { scheme := ['f', 'i', 'l', 'e'], host := some [], path := ['/', 'b'] }
    let first : Scheduling := ⟨[], a, 5, ⟨"first", some 10⟩, [.schedule b 3 ⟨"other", none⟩, .advance 6,
      .schedule a 2 ⟨"second", none⟩, .advance 20]⟩
    let second : Scheduling := ⟨[.schedule a 5 ⟨"first", some 10⟩, .schedule b 3 ⟨"other", none⟩, .advance 6], a, 2,
      ⟨"second", none⟩, [.advance 20]⟩
    let early : Scheduling := ⟨[], a, 0, ⟨"early", none⟩, [.schedule a 0 ⟨"late", none⟩, .advance 0]⟩
    let late : Scheduling := ⟨[.schedule a 0 ⟨"early", none⟩], a, 0, ⟨"late", none⟩, [.advance 0]⟩
    first.ops = second.ops ∧ first.ticket ≠ second.ticket ∧
      notesOf {} first.ops first.ticket = [⟨"first", 0, 5, false⟩] ∧
      notesOf {} first.ops second.ticket = [⟨"second", second.ticket, 8, false⟩] ∧
      (∃ t ∈ (run {} first.ops).1.tasks, t.uri = a ∧ t.cancelled = false ∧
        ∃ e : Scheduling, e.ops = first.ops ∧ e.IsKept ∧ t.phase.plain = e.phase) ∧
      (∃ n ∈ (run {} first.ops).2.flatMap (·.2), n.tag = "other" ∧
        ∃ e : Scheduling, e.ops = first.ops ∧ n.ticket = e.ticket) ∧
      ((run {} first.ops).1.step (.cancel a)).2.1 = some false ∧
      early.ops = late.ops ∧ notesOf {} early.ops early.ticket = [] ∧
      notesOf {} early.ops late.ticket = [⟨"late", 1, 0, false⟩] ∧
      ((run {} late.before).1.step (.cancel a)).2.1 = some true := by
  intro a b first second early late
  obtain ⟨-, hheld, hnote, hsame, hown, -⟩ := one_slot_for_each_document first.ops
  obtain ⟨-, -, -, -, hown', -⟩ := one_slot_for_each_document early.ops
  refine ⟨rfl, ?_, ?_, ?_, ?_, ?_, by decide +kernel, rfl, ?_, ?_, by decide +kernel⟩
  · intro he
    exact absurd (congrArg Scheduling.delay (hsame first second rfl rfl he)) (by decide)
  · rw [(hown first rfl).2.1]
    decide +kernel
  · rw [(hown second rfl).2.1]
    decide +kernel
  · have hmem : (⟨a, 3, ⟨"second", none⟩, .finished, false, false⟩ : Task TimedJob) ∈ (run {} first.ops).1.tasks := by
      decide +kernel
    obtain ⟨-, e, hops, -, -, -, hkept, hphase⟩ := hheld _ hmem
    exact ⟨_, hmem, rfl, rfl, e, hops, hkept.1 rfl, (hphase (hkept.1 rfl)).2⟩
  · have hmem : (⟨"other", 1, 3, false⟩ : JobNote) ∈ (run {} first.ops).2.flatMap (·.2) := by
      decide +kernel
    exact ⟨_, hmem, rfl, hnote _ hmem⟩
  · rw [(hown' early rfl).2.1]
    decide +kernel
  · rw [(hown' late rfl).2.1]
    decide +kernel

end EmbeddedMarkup.Debouncer
