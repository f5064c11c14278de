/-
Automatic insertions: when one has been put off long enough, the markup server is asked, and the
editor gets what it suggests, all as long as the document stays as it is.
-/
import EmbeddedMarkup.Server.Questions

namespace EmbeddedMarkup.Server

/-- Notes how far an insertion is. -/
def setPhase (s : Server) (ticket : Nat) (phase : Phase) : Server :=
  { s with debouncer := s.debouncer.setPhase ticket phase }

/-- Starts an insertion whose time has come, unless its flag is set. -/
def startInsertion (s : Server) (task : Task InsertionJob) : Server × List Action :=
  let job := task.job
  if task.cancelled then
    (s.setPhase task.ticket .finished, [])
  else
    match AutoInsert.inquire? s.session task.uri job.version job.trigger with
    | none => (s.setPhase task.ticket .finished, [])
    | some i =>
      match s.consult i (.autoInsert job.trigger.kind) with
      | (s, actions, some id) =>
        ((s.setPhase task.ticket .suspended).wait id (.insertion task i), actions)
      | (s, actions, none) => (s.setPhase task.ticket .finished, actions)

/-- Goes on with an insertion when the markup server has responded, unless the executor was told to
drop it. -/
def concludeInsertion (s : Server) (task : Task InsertionJob) (i : Inquiry) (response : Response) :
    Server × List Action :=
  let job := task.job
  let q := Query.autoInsert job.trigger.kind
  if s.debouncer.holds task.ticket then
    let (reply, effects) := q.conclude response
    let outcome := i.settle s.session q reply
    match AutoInsert.conclude? s.session s.settings.autoInsert task.uri job.version job.trigger
      outcome with
    | none => (s.setPhase task.ticket .finished, Action.ofEffects effects)
    | some insertion => (s, Action.ofEffects effects ++ [.insert task.ticket insertion])
  else
    (s, [])

/-- Starts at most `count` insertions that are due. -/
def startDue (now : Nat) : Nat → Server → Server × List Action
  | 0, s => (s, [])
  | count + 1, s =>
    match s.debouncer.next? now with
    | none => (s, [])
    | some (_, task) =>
      let (s, actions) := s.startInsertion task
      let (s, more) := startDue now count s
      (s, actions ++ more)

/-- Lets the executor have its turn, and starts all insertions that are due when the time is `now`. -/
def tick (s : Server) (now : Nat) : Server × List Action :=
  let s := { s with debouncer := s.debouncer.poll.setTime now }
  startDue now s.debouncer.tasks.length s

end EmbeddedMarkup.Server
