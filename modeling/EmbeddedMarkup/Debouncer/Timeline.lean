/-
A `Debouncer` in the course of time, with tasks that take a known time of their own: what starts and
ends when, for any operations at any moments. Nothing goes on between two plain calls; the executor has
its turn only while time passes, be it no time at all.
-/
import EmbeddedMarkup.Debouncer.Basic
import EmbeddedMarkup.Text.Decimal

namespace EmbeddedMarkup

/-- A job that leaves a note when it starts and, if it takes time, another one when it ends. -/
structure TimedJob where
  tag : String
  length : Option Nat
  deriving DecidableEq, Repr, Inhabited

/-- A note that the job of a task leaves. -/
structure JobNote where
  tag : String
  ticket : Nat
  time : Nat
  /-- Whether the job ended rather than started. -/
  isEnd : Bool
  deriving DecidableEq, Repr, Inhabited

namespace Debouncer

/-- What can be done with a debouncer. -/
inductive Operation where
  | schedule (uri : Url) (delay : Nat) (job : TimedJob)
  | cancel (uri : Url)
  | isPending (uri : Url)
  /-- Lets the executor have its turn and time pass. -/
  | advance (time : Nat)
  /-- Drops the debouncer for a new one. -/
  | drop
  deriving DecidableEq, Repr, Inhabited

/-- Lets the task that is next go on at the moment its alarm is set for. One that has slept before its
job looks at its flag first. -/
def goOn (d : Debouncer TimedJob) (alarm : Alarm) (task : Task TimedJob) :
    Debouncer TimedJob × List JobNote :=
  let d := d.setTime alarm.due
  let note (isEnd : Bool) : JobNote := ⟨task.job.tag, task.ticket, d.now, isEnd⟩
  match task.phase with
  | .waiting _ =>
    if task.cancelled then
      (d.setPhase task.ticket .finished, [])
    else
      match task.job.length with
      | some length => (d.sleep task.ticket length, [note false])
      | none => (d.setPhase task.ticket .finished, [note false])
  | _ => (d.setPhase task.ticket .finished, [note true])

/-- Lets at most `count` times a task go on that is due at `limit`. -/
def catchUp (limit : Nat) : Nat → Debouncer TimedJob → Debouncer TimedJob × List JobNote
  | 0, d => (d, [])
  | count + 1, d =>
    match d.next? limit with
    | none => (d, [])
    | some (alarm, task) =>
      let (d, notes) := d.goOn alarm task
      let (d, more) := catchUp limit count d
      (d, notes ++ more)

/-- Lets the executor have its turn and time pass until `limit`. Every task goes on at most twice
after its first turn, to start and to end. -/
def passTo (d : Debouncer TimedJob) (limit : Nat) : Debouncer TimedJob × List JobNote :=
  let (d, notes) := catchUp limit (2 * d.tasks.length) d.poll
  (d.setTime limit, notes)

/-- A call, in which nothing goes on: the debouncer afterwards and the answer, if it has one. -/
def perform (d : Debouncer TimedJob) : Operation → Debouncer TimedJob × Option Bool
  | .schedule uri delay job => (d.schedule uri delay job, none)
  | .cancel uri => ((d.cancel uri).1, some (d.cancel uri).2)
  | .isPending uri => (d, some (d.isPending uri))
  | .advance _ => (d, none)
  | .drop => (d.clear, none)

/-- An operation: the debouncer afterwards, the answer and the notes left meanwhile. -/
def step (d : Debouncer TimedJob) : Operation → Debouncer TimedJob × Option Bool × List JobNote
  | .advance time => ((d.passTo (d.now + time)).1, none, (d.passTo (d.now + time)).2)
  | op => ((d.perform op).1, (d.perform op).2, [])

/-- A list of operations, with the answer to each and the notes left with it. -/
def run (d : Debouncer TimedJob) : List Operation →
    Debouncer TimedJob × List (Option Bool × List JobNote)
  | [] => (d, [])
  | op :: ops =>
    let (d, outcome) := d.step op
    let (d, outcomes) := run d ops
    (d, outcome :: outcomes)

/-- How a debouncer is shown in logs. -/
def describe {α : Type} (d : Debouncer α) : String :=
  "AutoInsertScheduler \x7b pending: " ++ String.ofList (Decimal.digits d.size) ++ " \x7d"

end Debouncer

end EmbeddedMarkup
