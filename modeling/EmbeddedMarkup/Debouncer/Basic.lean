/-
Debouncing: work on a document that is put off for a while, and given up when the document changes
again before it is done. A `Debouncer` keeps one handle for each document, that of the task scheduled
last. The tasks themselves are with the executor, which goes on with them in a `poll` and not before. A
task is given up in two ways at once: its flag is set, which it looks at when its time has come, and
the executor is told to drop it, wherever it is.
-/
import EmbeddedMarkup.Url.Basic

namespace EmbeddedMarkup

/-- A moment at which a task goes on, in milliseconds. Of alarms for the same moment the one with the
lower number comes first. -/
structure Alarm where
  due : Nat
  number : Nat
  deriving DecidableEq, Repr, Inhabited

/-- Whether an alarm goes off before another. -/
def Alarm.isBefore (a b : Alarm) : Bool :=
  a.due < b.due || (a.due = b.due && a.number < b.number)

/-- How far a task is. -/
inductive Phase where
  /-- It had no turn yet; in its first one it goes to sleep for `delay`. -/
  | spawned (delay : Nat)
  /-- It sleeps before its job. -/
  | waiting (alarm : Alarm)
  /-- Its job has started and goes on at a set moment. -/
  | sleeping (alarm : Alarm)
  /-- Its job has started and goes on when something happens. -/
  | suspended
  /-- It has come to its end or was dropped. -/
  | finished
  deriving DecidableEq, Repr, Inhabited

/-- The alarm that is set in a phase. -/
def Phase.alarm? : Phase → Option Alarm
  | waiting alarm => some alarm
  | sleeping alarm => some alarm
  | _ => none

/-- A task for a document. No other task has its `ticket`. -/
structure Task (α : Type) where
  uri : Url
  ticket : Nat
  job : α
  phase : Phase
  /-- The flag that the task shares with its handle. -/
  cancelled : Bool := false
  /-- Whether the executor was told to drop it. -/
  aborted : Bool := false
  deriving DecidableEq, Repr, Inhabited

namespace Task

variable {α : Type}

/-- Gives a task up: sets its flag, and tells the executor to drop it. -/
def revoke (t : Task α) : Task α :=
  { t with cancelled := true, aborted := true }

/-- A turn that a task has at once: it is dropped if the executor was told so, and otherwise goes to
sleep if it is new. -/
def poll (now : Nat) (t : Task α) : Task α :=
  if t.aborted then
    { t with phase := .finished }
  else
    match t.phase with
    | .spawned delay => { t with phase := .waiting ⟨now + delay, t.ticket⟩ }
    | _ => t

end Task

/-- The tasks of all documents, and the handles by which they can be given up. -/
structure Debouncer (α : Type) where
  now : Nat := 0
  /-- How many alarms and tickets have been given out. -/
  alarms : Nat := 0
  /-- The ticket of the task scheduled last, for each document. -/
  handles : List (Url × Nat) := []
  /-- All tasks that were ever spawned, the last one at the end. -/
  tasks : List (Task α) := []
  deriving DecidableEq, Repr, Inhabited

namespace Debouncer

variable {α : Type}

/-- The ticket that the handle of a document holds. -/
def handle? (d : Debouncer α) (uri : Url) : Option Nat :=
  (d.handles.find? fun h => h.1 = uri).map (·.2)

/-- Whether the task with a ticket is still to be done with. -/
def isUnfinished (d : Debouncer α) (ticket : Nat) : Bool :=
  d.tasks.any fun t => t.ticket = ticket && t.phase ≠ .finished

/-- Gives up the task with a ticket. -/
def revoke (d : Debouncer α) (ticket : Nat) : Debouncer α :=
  { d with tasks := d.tasks.map fun t => if t.ticket = ticket then t.revoke else t }

/-- Drops the handle of a document. -/
def dropHandle (d : Debouncer α) (uri : Url) : Debouncer α :=
  { d with handles := d.handles.filter fun h => h.1 ≠ uri }

/-- Spawns a task that sleeps for `delay` before its job, and keeps its handle. -/
def spawn (d : Debouncer α) (uri : Url) (delay : Nat) (job : α) : Debouncer α :=
  { d with
    alarms := d.alarms + 1
    handles := (d.dropHandle uri).handles ++ [(uri, d.alarms)]
    tasks := d.tasks ++ [⟨uri, d.alarms, job, .spawned delay, false, false⟩] }

/-- Puts a job off by `delay`. If there was a handle for the document, its task is given up. -/
def schedule (d : Debouncer α) (uri : Url) (delay : Nat) (job : α) : Debouncer α :=
  match d.handle? uri with
  | none => d.spawn uri delay job
  | some previous => (d.spawn uri delay job).revoke previous

/-- Gives up the task behind the handle of a document, if there is one, and says whether it was still
to be done with. -/
def cancel (d : Debouncer α) (uri : Url) : Debouncer α × Bool :=
  match d.handle? uri with
  | none => (d, false)
  | some ticket => ((d.dropHandle uri).revoke ticket, d.isUnfinished ticket)

/-- Whether the task behind the handle of a document is waiting or under way. -/
def isPending (d : Debouncer α) (uri : Url) : Bool :=
  (d.handle? uri).any d.isUnfinished

/-- Gives up the tasks behind all handles, and drops these. -/
def clear (d : Debouncer α) : Debouncer α :=
  { d.handles.foldl (fun d h => d.revoke h.2) d with handles := [] }

/-- The number of handles, with those of tasks that are finished. -/
def size (d : Debouncer α) : Nat :=
  d.handles.length

/-! ## The executor -/

/-- The executor has its turn: what it was told to drop is gone, and new tasks go to sleep. -/
def poll (d : Debouncer α) : Debouncer α :=
  { d with tasks := d.tasks.map (Task.poll d.now) }

/-- Of two tasks with alarms the one that goes on first. -/
def first (a b : Alarm × Task α) : Alarm × Task α :=
  if b.1.isBefore a.1 then b else a

/-- The task that goes on next, and the alarm it goes by. -/
def first? (d : Debouncer α) : Option (Alarm × Task α) :=
  match d.tasks.filterMap fun t => t.phase.alarm?.map fun a => (a, t) with
  | [] => none
  | p :: rest => some (rest.foldl first p)

/-- The task that goes on next, if that is not later than `limit`, and the alarm it goes by. -/
def next? (d : Debouncer α) (limit : Nat) : Option (Alarm × Task α) :=
  d.first?.filter fun p => p.1.due ≤ limit

/-- Whether the task with a ticket goes on when it is woken: the executor was not told to drop it. -/
def holds (d : Debouncer α) (ticket : Nat) : Bool :=
  d.tasks.any fun t => t.ticket = ticket && !t.aborted

/-- Notes how far a task is. -/
def setPhase (d : Debouncer α) (ticket : Nat) (phase : Phase) : Debouncer α :=
  { d with tasks := d.tasks.map fun t => if t.ticket = ticket then { t with phase } else t }

/-- Lets a task go on after `pause`. -/
def sleep (d : Debouncer α) (ticket pause : Nat) : Debouncer α :=
  { d.setPhase ticket (.sleeping ⟨d.now + pause, d.alarms⟩) with alarms := d.alarms + 1 }

/-- Lets the time be `now`, unless it is later already. -/
def setTime (d : Debouncer α) (now : Nat) : Debouncer α :=
  { d with now := max d.now now }

end Debouncer

end EmbeddedMarkup
