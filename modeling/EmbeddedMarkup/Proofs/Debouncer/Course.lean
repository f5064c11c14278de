/-
The course of one task, as far as it is a matter of the task alone. `Task.passed` says how far it is when the
time has come to some moment, and `Task.notesUntil` what it has left by then; `Task.after` says what one
operation makes of it, and `Task.afterAll` what many do. As long as a task is kept it passes with the time,
from its first turn on, and when it is given up it is not heard of again.
-/
import EmbeddedMarkup.Debouncer.Timeline
import EmbeddedMarkup.Proofs.Debouncer.Tasks
import Mathlib.Algebra.BigOperators.Group.List.Basic
import Mathlib.Algebra.Order.Ring.Nat
import Mathlib.Tactic.SplitIfs

namespace EmbeddedMarkup

/-! ## Passing of time -/

/-- The notes that a job which starts at `start` has left by `now`. -/
def TimedJob.notes (job : TimedJob) (ticket start now : Nat) : List JobNote :=
  (if start ≤ now then [⟨job.tag, ticket, start, false⟩] else []) ++
    match job.length with
    | none => []
    | some n => if start + n ≤ now then [⟨job.tag, ticket, start + n, true⟩] else []

/-- A phase without the number of its alarm, which only orders the tasks of one moment. -/
def Phase.plain : Phase → Phase
  | spawned delay => spawned delay
  | waiting a => waiting ⟨a.due, 0⟩
  | sleeping a => sleeping ⟨a.due, 0⟩
  | suspended => suspended
  | finished => finished

/-- How far a task of the given length is when the time has come to `limit`. -/
def Phase.passed (length : Option Nat) (limit : Nat) : Phase → Phase
  | spawned delay => spawned delay
  | waiting a =>
    if limit < a.due then waiting ⟨a.due, 0⟩
    else if limit < a.due + length.getD 0 then sleeping ⟨a.due + length.getD 0, 0⟩
    else finished
  | sleeping a => if limit < a.due then sleeping ⟨a.due, 0⟩ else finished
  | suspended => suspended
  | finished => finished

namespace Task

def plain {α : Type} (t : Task α) : Task α :=
  { t with phase := t.phase.plain }

/-- A task when the time has come to `limit`. -/
def passed (limit : Nat) (t : Task TimedJob) : Task TimedJob :=
  { t with phase := t.phase.passed t.job.length limit }

/-- The notes that a task leaves until `limit`. -/
def notesUntil (limit : Nat) (t : Task TimedJob) : List JobNote :=
  match t.phase with
  | .waiting a => t.job.notes t.ticket a.due limit
  | .sleeping a => if a.due ≤ limit then [⟨t.job.tag, t.ticket, a.due, true⟩] else []
  | _ => []

theorem alarm?_plain {α : Type} (t : Task α) : t.plain.phase.alarm? = t.phase.alarm?.map fun a => ⟨a.due, 0⟩ := by
  rcases t with ⟨uri, ticket, job, _ | _ | _ | _ | _⟩ <;> rfl

theorem plain_plain {α : Type} (t : Task α) : t.plain.plain = t.plain := by
  rcases t with ⟨uri, ticket, job, _ | _ | _ | _ | _⟩ <;> rfl

theorem passed_plain (limit : Nat) (t : Task TimedJob) : t.plain.passed limit = t.passed limit := by
  rcases t with ⟨uri, ticket, job, _ | _ | _ | _ | _⟩ <;> rfl

theorem plain_passed (limit : Nat) (t : Task TimedJob) : (t.passed limit).plain = t.passed limit := by
  rcases t with ⟨uri, ticket, job, _ | x | x | _ | _⟩
  · rfl
  · simp only [passed, plain, Phase.passed]
    split_ifs <;> rfl
  · simp only [passed, plain, Phase.passed]
    split_ifs <;> rfl
  · rfl
  · rfl

theorem notesUntil_plain (limit : Nat) (t : Task TimedJob) : t.plain.notesUntil limit = t.notesUntil limit := by
  rcases t with ⟨uri, ticket, job, _ | _ | _ | _ | _⟩ <;> rfl

/-- `passed` in steps is `passed` at once. -/
theorem passed_passed {a b : Nat} (h : a ≤ b) (t : Task TimedJob) : (t.passed a).passed b = t.passed b := by
  rcases t with ⟨uri, ticket, job, _ | x | x | _ | _⟩
  · rfl
  · by_cases h1 : a < x.due
    · simp [passed, Phase.passed, h1]
    · have h2 : ¬ b < x.due := by omega
      by_cases h3 : a < x.due + job.length.getD 0
      · simp [passed, Phase.passed, h1, h2, h3]
      · have h4 : ¬ b < x.due + job.length.getD 0 := by omega
        simp [passed, Phase.passed, h1, h2, h3, h4]
  · by_cases h1 : a < x.due
    · simp [passed, Phase.passed, h1]
    · have h2 : ¬ b < x.due := by omega
      simp [passed, Phase.passed, h1, h2]
  · rfl
  · rfl

theorem notesUntil_append {a b : Nat} (h : a ≤ b) (t : Task TimedJob) :
    t.notesUntil b = t.notesUntil a ++ (t.passed a).notesUntil b := by
  rcases t with ⟨uri, ticket, ⟨tag, length⟩, _ | x | x | _ | _⟩
  · rfl
  · by_cases h1 : a < x.due
    · have h2 : ¬ x.due ≤ a := by omega
      cases length with
      | none => simp [notesUntil, passed, Phase.passed, TimedJob.notes, h1, h2]
      | some n =>
        have h3 : ¬ x.due + n ≤ a := by omega
        simp [notesUntil, passed, Phase.passed, TimedJob.notes, h1, h2, h3]
    · have h2 : x.due ≤ a := by omega
      have h3 : x.due ≤ b := by omega
      cases length with
      | none => simp [notesUntil, passed, Phase.passed, TimedJob.notes, h1, h2, h3]
      | some n =>
        by_cases h4 : a < x.due + n
        · have h5 : ¬ x.due + n ≤ a := by omega
          simp [notesUntil, passed, Phase.passed, TimedJob.notes, h1, h2, h3, h4, h5]
        · have h5 : x.due + n ≤ a := by omega
          have h6 : x.due + n ≤ b := by omega
          simp [notesUntil, passed, Phase.passed, TimedJob.notes, h1, h2, h3, h4, h5, h6]
  · by_cases h1 : a < x.due
    · have h2 : ¬ x.due ≤ a := by omega
      simp [notesUntil, passed, Phase.passed, h1, h2]
    · have h2 : x.due ≤ a := by omega
      have h3 : x.due ≤ b := by omega
      simp [notesUntil, passed, Phase.passed, h1, h2, h3]
  · rfl
  · rfl

/-- Before its alarm a task stays where it is. -/
theorem passed_of_lt {limit : Nat} {t : Task TimedJob} (h : ∀ a, t.phase.alarm? = some a → limit < a.due) :
    t.passed limit = t.plain ∧ t.notesUntil limit = [] := by
  rcases t with ⟨uri, ticket, ⟨tag, length⟩, _ | x | x | _ | _⟩
  · exact ⟨rfl, rfl⟩
  · have h1 := h x rfl
    have h2 : ¬ x.due ≤ limit := by omega
    cases length with
    | none => simp [notesUntil, passed, plain, Phase.passed, Phase.plain, TimedJob.notes, h1, h2]
    | some n =>
      have h3 : ¬ x.due + n ≤ limit := by omega
      simp [notesUntil, passed, plain, Phase.passed, Phase.plain, TimedJob.notes, h1, h2, h3]
  · have h1 := h x rfl
    have h2 : ¬ x.due ≤ limit := by omega
    simp [notesUntil, passed, plain, Phase.passed, Phase.plain, h1, h2]
  · exact ⟨rfl, rfl⟩
  · exact ⟨rfl, rfl⟩

/-- What is still to come of a task is to come later. -/
theorem lt_of_alarm?_passed {limit : Nat} {t : Task TimedJob} {a : Alarm}
    (h : (t.passed limit).phase.alarm? = some a) : limit < a.due := by
  rcases t with ⟨uri, ticket, job, _ | x | x | _ | _⟩
  · cases h
  · simp only [passed, Phase.passed] at h
    split_ifs at h with h1 h2
    · cases h; exact h1
    · cases h; exact h2
    · cases h
  · simp only [passed, Phase.passed] at h
    split_ifs at h with h1
    · cases h; exact h1
    · cases h
  · cases h
  · cases h

/-- Once it had its first turn a task has had it. -/
theorem phase_passed_ne {t : Task TimedJob} (h : ∀ delay, t.phase ≠ .spawned delay) (limit delay : Nat) :
    (t.passed limit).phase ≠ .spawned delay := by
  rcases t with ⟨uri, ticket, job, x | x | x | _ | _⟩
  · exact absurd rfl (h x)
  · simp only [passed, Phase.passed]
    split_ifs <;> simp
  · simp only [passed, Phase.passed]
    split_ifs <;> simp
  · simp [passed, Phase.passed]
  · simp [passed, Phase.passed]

end Task

namespace Debouncer

/-! ## Operations -/

/-- How much time an operation lets pass, which only `advance` does. -/
def Operation.time : Operation → Nat
  | advance time => time
  | _ => 0

/-- Whether an operation lets the executor have its turn. -/
def Operation.isAdvance : Operation → Bool
  | advance _ => true
  | _ => false

/-- Whether an operation gives up the task of a document, for another one or for none. -/
def Operation.givesUp (uri : Url) : Operation → Bool
  | schedule u _ _ => uri = u
  | cancel u => uri = u
  | isPending _ => false
  | advance _ => false
  | drop => true

/-- The task that an operation spawns, with the ticket that is next. -/
def Operation.spawned (ticket : Nat) : Operation → List (Task TimedJob)
  | schedule uri delay job => [{ uri, ticket, job, phase := .spawned delay }]
  | _ => []

/-- The moment after operations, by `Operation.time`. -/
def clock (ops : List Operation) : Nat :=
  (ops.map Operation.time).sum

@[simp] theorem clock_nil : clock [] = 0 := rfl

@[simp] theorem clock_cons (op : Operation) (ops : List Operation) : clock (op :: ops) = op.time + clock ops := rfl

@[simp] theorem clock_append (a b : List Operation) : clock (a ++ b) = clock a + clock b := by
  simp [clock]

end Debouncer

namespace Task

open Debouncer (Operation clock clock_cons)

/-- What an operation makes of a task, in the course of the time that it lets pass. -/
def after (now : Nat) (t : Task TimedJob) : Operation → Task TimedJob
  | .advance time => (t.poll now).passed (now + time)
  | op => t.revokeIf (op.givesUp ·)

/-- The notes that a task leaves with an operation. -/
def notesIn (now : Nat) (t : Task TimedJob) : Operation → List JobNote
  | .advance time => (t.poll now).notesUntil (now + time)
  | _ => []

/-- Nothing goes on with a call, which is no `advance`. -/
theorem after_of_call {op : Operation} (h : op.isAdvance = false) (now : Nat) (t : Task TimedJob) :
    t.after now op = t.revokeIf (op.givesUp ·) ∧ t.notesIn now op = [] ∧ op.time = 0 := by
  cases op with
  | advance time => cases h
  | _ => exact ⟨rfl, rfl, rfl⟩

theorem poll_plain (now : Nat) (t : Task TimedJob) : (t.plain.poll now).plain = (t.poll now).plain := by
  rcases t with ⟨uri, ticket, job, _ | _ | _ | _ | _, cancelled, _ | _⟩ <;> rfl

theorem revokeIf_plain (p : Url → Bool) (t : Task TimedJob) : t.plain.revokeIf p = (t.revokeIf p).plain := by
  show (if p t.uri then t.plain.revoke else t.plain) = (if p t.uri then t.revoke else t).plain
  split <;> rfl

theorem after_plain (now : Nat) (t : Task TimedJob) (op : Operation) :
    (t.plain.after now op).plain = (t.after now op).plain := by
  cases hop : op.isAdvance with
  | true =>
    cases op with
    | advance time =>
      show ((t.plain.poll now).passed _).plain = ((t.poll now).passed _).plain
      rw [← passed_plain, poll_plain, passed_plain]
    | _ => cases hop
  | false => rw [(after_of_call hop now t.plain).1, (after_of_call hop now t).1, revokeIf_plain, plain_plain]

theorem notesIn_plain (now : Nat) (t : Task TimedJob) (op : Operation) : t.plain.notesIn now op = t.notesIn now op := by
  cases op with
  | advance time =>
    show (t.plain.poll now).notesUntil _ = (t.poll now).notesUntil _
    rw [← notesUntil_plain, poll_plain, notesUntil_plain]
  | _ => rfl

theorem alarm?_poll {now : Nat} {t : Task TimedJob} {a : Alarm} (h : (t.poll now).phase.alarm? = some a) :
    t.aborted = false ∧ (t.phase.alarm? = some a ∨ now ≤ a.due) := by
  unfold poll at h
  split at h
  · cases h
  · rename_i haborted
    refine ⟨by simpa using haborted, ?_⟩
    split at h
    · cases h
      exact .inr (Nat.le_add_right ..)
    · exact .inl h

/-! ## Many operations -/

/-- What operations make of a task, one `after` the other. -/
def afterAll (now : Nat) (t : Task TimedJob) : List Operation → Task TimedJob
  | [] => t
  | op :: ops => (t.after now op).afterAll (now + op.time) ops

/-- The notes that a task leaves with operations, by `notesIn`. -/
def notesAlong (now : Nat) (t : Task TimedJob) : List Operation → List JobNote
  | [] => []
  | op :: ops => t.notesIn now op ++ (t.after now op).notesAlong (now + op.time) ops

theorem afterAll_append (now : Nat) (t : Task TimedJob) (a b : List Operation) :
    t.afterAll now (a ++ b) = (t.afterAll now a).afterAll (now + clock a) b := by
  induction a generalizing now t with
  | nil => rfl
  | cons op a ih => rw [List.cons_append, afterAll, ih, afterAll, clock_cons, Nat.add_assoc]

theorem notesAlong_append (now : Nat) (t : Task TimedJob) (a b : List Operation) :
    t.notesAlong now (a ++ b) = t.notesAlong now a ++ (t.afterAll now a).notesAlong (now + clock a) b := by
  induction a generalizing now t with
  | nil => rfl
  | cons op a ih =>
    rw [List.cons_append, notesAlong, ih, notesAlong, afterAll, clock_cons, Nat.add_assoc, List.append_assoc]

/-- Numbers of alarms have no part in what becomes of a task. -/
theorem afterAll_congr {t t' : Task TimedJob} (h : t'.plain = t.plain) (now : Nat) (ops : List Operation) :
    (t'.afterAll now ops).plain = (t.afterAll now ops).plain ∧ t'.notesAlong now ops = t.notesAlong now ops := by
  induction ops generalizing now t t' with
  | nil => exact ⟨h, rfl⟩
  | cons op ops ih =>
    have hnext : (t'.after now op).plain = (t.after now op).plain := by rw [← after_plain, h, after_plain]
    have hnotes : t'.notesIn now op = t.notesIn now op := by rw [← notesIn_plain, h, notesIn_plain]
    obtain ⟨hlast, hmore⟩ := ih hnext (now + op.time)
    exact ⟨hlast, by rw [notesAlong, notesAlong, hnotes, hmore]⟩

/-- What a task is does not change, and its flag tells whether it was given up. -/
theorem after_frame (now : Nat) (t : Task TimedJob) (op : Operation) :
    (t.after now op).uri = t.uri ∧ (t.after now op).ticket = t.ticket ∧ (t.after now op).job = t.job ∧
      (t.after now op).cancelled = (t.cancelled || op.givesUp t.uri) ∧
      (t.after now op).aborted = (t.aborted || op.givesUp t.uri) := by
  cases hop : op.isAdvance with
  | true =>
    cases op with
    | advance time =>
      have hlabel : (t.after now (.advance time)).label = t.label := t.label_poll now
      obtain ⟨huri, hticket, hcancelled, haborted⟩ := of_label_eq hlabel
      have hjob : (t.after now (.advance time)).label.job = t.label.job := by rw [hlabel]
      exact ⟨huri, hticket, hjob, by simp [hcancelled, Operation.givesUp], by simp [haborted, Operation.givesUp]⟩
    | _ => cases hop
  | false =>
    rw [(after_of_call hop now t).1]
    simp

theorem afterAll_frame (now : Nat) (t : Task TimedJob) (ops : List Operation) :
    (t.afterAll now ops).uri = t.uri ∧ (t.afterAll now ops).ticket = t.ticket ∧ (t.afterAll now ops).job = t.job ∧
      (t.afterAll now ops).cancelled = (t.cancelled || ops.any (·.givesUp t.uri)) ∧
      (t.afterAll now ops).aborted = (t.aborted || ops.any (·.givesUp t.uri)) := by
  induction ops generalizing now t with
  | nil => simp [afterAll]
  | cons op ops ih =>
    obtain ⟨huri, hticket, hjob, hcancelled, haborted⟩ := t.after_frame now op
    obtain ⟨huri', hticket', hjob', hcancelled', haborted'⟩ := ih (now + op.time) (t.after now op)
    rw [afterAll, huri', hticket', hjob', hcancelled', haborted', huri, hticket, hjob, hcancelled, haborted]
    simp [Bool.or_assoc]

/-- A task that was given up is not heard of again. -/
theorem notesAlong_of_aborted {t : Task TimedJob} (h : t.aborted = true) (now : Nat) (ops : List Operation) :
    t.notesAlong now ops = [] := by
  induction ops generalizing now t with
  | nil => rfl
  | cons op ops ih =>
    have hnext : (t.after now op).aborted = true := by
      rw [(t.after_frame now op).2.2.2.2, h, Bool.true_or]
    have hnotes : t.notesIn now op = [] := by
      cases op with
      | advance time =>
        show (t.poll now).notesUntil _ = []
        rw [poll, if_pos h]; rfl
      | _ => rfl
    rw [notesAlong, hnotes, ih hnext, List.nil_append]

/-- As long as a task is kept that had its first turn, it passes with the time, and leaves the notes that it
leaves on its own. -/
theorem afterAll_of_kept {now : Nat} {t : Task TimedJob} (haborted : t.aborted = false)
    (hawake : ∀ delay, t.phase ≠ .spawned delay) (hlater : ∀ a, t.phase.alarm? = some a → now < a.due)
    {ops : List Operation} (hkept : ∀ op ∈ ops, op.givesUp t.uri = false) :
    (t.afterAll now ops).plain = t.passed (now + clock ops) ∧
      t.notesAlong now ops = t.notesUntil (now + clock ops) := by
  induction ops generalizing now t with
  | nil =>
    obtain ⟨hpassed, hnotes⟩ := passed_of_lt hlater
    exact ⟨hpassed.symm, hnotes.symm⟩
  | cons op ops ih =>
    have hop := hkept op (List.mem_cons_self ..)
    have hrest : ∀ op ∈ ops, op.givesUp t.uri = false := fun op hmem => hkept op (List.mem_cons_of_mem _ hmem)
    have hle : now + op.time ≤ now + (op.time + clock ops) := by omega
    rw [afterAll, notesAlong, clock_cons]
    cases hadvance : op.isAdvance with
    | true =>
      cases op with
      | advance time =>
        have hpoll : t.poll now = t := by
          unfold poll
          rw [if_neg (by simp [haborted])]
          split
          · rename_i delay hphase
            exact absurd hphase (hawake delay)
          · rfl
        have hafter : t.after now (.advance time) = t.passed (now + time) := by
          show (t.poll now).passed _ = _
          rw [hpoll]
        have hnotes : t.notesIn now (.advance time) = t.notesUntil (now + time) := by
          show (t.poll now).notesUntil _ = _
          rw [hpoll]
        have hawake' : ∀ delay, (t.passed (now + time)).phase ≠ .spawned delay := phase_passed_ne hawake _
        obtain ⟨hlast, hmore⟩ := ih (t := t.passed (now + time)) haborted hawake' (fun a => lt_of_alarm?_passed) hrest
        rw [hafter, hnotes]
        constructor
        · exact hlast.trans (by rw [passed_passed (Nat.le_add_right ..), Nat.add_assoc]; rfl)
        · rw [notesUntil_append hle]
          rw [Nat.add_assoc] at hmore
          exact congrArg _ hmore
      | _ => cases hadvance
    | false =>
      obtain ⟨hafter, hnotes, htime⟩ := after_of_call hadvance now t
      have hsame : t.after now op = t := by rw [hafter, revokeIf, if_neg (by simp [hop])]
      rw [hsame, hnotes, htime, Nat.add_zero, Nat.zero_add, List.nil_append]
      exact ih haborted hawake hlater hrest

/-- A new task passes as one that waits for its deadline, from the first turn of the executor on. -/
theorem afterAll_of_spawned (now : Nat) {delay : Nat} {t : Task TimedJob} (haborted : t.aborted = false)
    (hphase : t.phase = .spawned delay) {ops : List Operation} (hkept : ∀ op ∈ ops, op.givesUp t.uri = false) :
    let asleep : Task TimedJob := { t with phase := .waiting ⟨now + delay, t.ticket⟩ }
    (t.afterAll now ops).plain = (if ops.any (·.isAdvance) then asleep.passed (now + clock ops) else t) ∧
      t.notesAlong now ops = if ops.any (·.isAdvance) then asleep.notesUntil (now + clock ops) else [] := by
  intro asleep
  induction ops with
  | nil =>
    have hplain : t.plain = t := by
      unfold plain
      rw [hphase, Phase.plain, ← hphase]
    exact ⟨hplain, rfl⟩
  | cons op ops ih =>
    have hop := hkept op (List.mem_cons_self ..)
    have hrest : ∀ op ∈ ops, op.givesUp t.uri = false := fun op hmem => hkept op (List.mem_cons_of_mem _ hmem)
    rw [afterAll, notesAlong, clock_cons, List.any_cons]
    cases hadvance : op.isAdvance with
    | true =>
      cases op with
      | advance time =>
        have hpoll : t.poll now = asleep := by
          unfold poll
          rw [if_neg (by simp [haborted]), hphase]
        have hafter : t.after now (.advance time) = asleep.passed (now + time) := by
          show (t.poll now).passed _ = _
          rw [hpoll]
        have hnotes : t.notesIn now (.advance time) = asleep.notesUntil (now + time) := by
          show (t.poll now).notesUntil _ = _
          rw [hpoll]
        have hawake : ∀ delay, (asleep.passed (now + time)).phase ≠ .spawned delay :=
          phase_passed_ne (fun delay => by simp [asleep]) _
        obtain ⟨hlast, hmore⟩ := afterAll_of_kept (t := asleep.passed (now + time)) haborted hawake
          (fun a => lt_of_alarm?_passed) hrest
        rw [passed_passed (Nat.le_add_right ..)] at hlast
        have hsplit := notesUntil_append (Nat.le_add_right (now + time) (clock ops)) asleep
        rw [hafter, hnotes, Bool.true_or, if_pos rfl, if_pos rfl, Operation.time, ← Nat.add_assoc, hsplit]
        exact ⟨hlast, congrArg _ hmore⟩
      | _ => cases hadvance
    | false =>
      obtain ⟨hafter, hnotes, htime⟩ := after_of_call hadvance now t
      have hsame : t.after now op = t := by rw [hafter, revokeIf, if_neg (by simp [hop])]
      rw [hsame, hnotes, htime, Nat.add_zero, Nat.zero_add, List.nil_append, Bool.false_or]
      exact ih hrest

end Task

end EmbeddedMarkup
