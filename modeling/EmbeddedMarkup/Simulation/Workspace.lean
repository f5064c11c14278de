/-
The server in a simulated world: an editor that sends one message after the other, a markup server
that follows a script, and a time that passes only while something is waited for.
-/
import EmbeddedMarkup.Server.Editor
import EmbeddedMarkup.Server.Step
import EmbeddedMarkup.Simulation.Peer

namespace EmbeddedMarkup.Simulation

/-! ## The world -/

/-- The directory that the editor works in. -/
def workspaceDirectory : Path := ["tmp", "workspace"]

/-- The address of that directory. -/
def workspaceUrl : Url := Url.ofDirectory workspaceDirectory

/-- The command that runs the scripted markup server. -/
def scriptedCommand : String := "/opt/scripted-markup-server"

/-- The text of the settings file in the workspace: the command, and what else is given. -/
def settingsText (more : Text) : Text :=
  ("[markup]\ncommand = \"" ++ scriptedCommand ++ "\"\nargs = []\n").toList ++ more

/-- A world with a settings file, in which the scripted command can be run or not. -/
def surroundings (isInstalled : Bool) (settings : Text) : Surroundings where
  files := ({} : FileTree).add (workspaceDirectory ++ [Settings.fileName])
    (.file (Utf8.encode (settingsText settings)))
  spawn markup root :=
    let isThere := root.all fun dir => dir.isPrefixOf workspaceDirectory
    if isInstalled && isThere && markup.command = scriptedCommand then none
    else some "No such file or directory (os error 2)"
  processId := 1

/-- The server and those it deals with. -/
structure Workspace where
  surroundings : Surroundings
  peer : Peer
  server : Server := {}
  /-- What the server wanted of the editor, in order: methods and parameters. -/
  toEditor : List (String × Json) := []
  /-- What the markup server got, in order. -/
  toMarkup : List Outgoing := []
  /-- The answers to requests of the editor, in order. -/
  answers : List (Except Refusal Json) := []

namespace Workspace

/-! ## Events and what they bring about -/

/-- What an action brings about: the world afterwards, and what happens to the server for it. The
editor makes every insertion at once. -/
def act (w : Workspace) (action : Action) : Workspace × List Event :=
  let w := { w with toEditor := w.toEditor ++ action.call?.toList }
  match action with
  | .respond _ result => ({ w with answers := w.answers ++ [result] }, [])
  | .insert ticket _ => (w, [.inserted ticket])
  | .write message =>
    if w.peer.isThere then
      let (peer, reaction) := w.peer.react message
      let ending : List Event := if reaction.isEnd then [.markupEnded none] else []
      ({ w with peer, toMarkup := w.toMarkup ++ [message] },
        reaction.messages.map .markupMessage ++ ending)
    else
      (w, [])
  | _ => (w, [])

/-- What several actions bring about. -/
def actAll (w : Workspace) : List Action → Workspace × List Event
  | [] => (w, [])
  | action :: actions =>
    let (w, events) := w.act action
    let (w, more) := w.actAll actions
    (w, events ++ more)

/-- Lets several things happen to the server, one after the other. -/
def happen (w : Workspace) : List Event → Workspace × List Event
  | [] => (w, [])
  | event :: events =>
    let (server, actions) := w.server.step w.surroundings event
    let (w, caused) := { w with server }.actAll actions
    let (w, more) := w.happen events
    (w, caused ++ more)

/-- The writing of all messages to the markup server that are queued. -/
def writes (w : Workspace) : List Event :=
  match w.server.markup with
  | none => []
  | some c => c.queue.map fun _ => .markupWrite w.peer.isThere

/-- Lets things happen, and what they bring about, for some rounds: in each of them the events of
the one before, and then the writing of messages. Answers are not answered, so that few rounds
do. -/
def settle : Nat → Workspace → List Event → Workspace
  | 0, w, _ => w
  | rounds + 1, w, events =>
    let (w, caused) := w.happen events
    let (w, replies) := w.happen w.writes
    settle rounds w (caused ++ replies)

/-- The number of rounds until all is quiet. -/
def quietRounds : Nat := 6

/-- Lets something happen and waits until all is quiet. -/
def feed (w : Workspace) (event : Event) : Workspace :=
  settle quietRounds w [event]

/-! ## Steps -/

/-- What is waited for. -/
inductive Target where
  /-- That the editor is asked for so many insertions. -/
  | insertions (count : Nat)
  /-- That so many messages of a method reach the markup server. -/
  | messages (method : String) (count : Nat)
  deriving DecidableEq, Repr, Inhabited

/-- Whether a message to the markup server has a method. -/
def hasMethod (method : String) : Outgoing → Bool
  | .request _ m _ => m = method
  | .notification m _ => m = method
  | .answer _ _ => false

/-- Whether what is waited for has happened. -/
def hasReached (w : Workspace) : Target → Bool
  | .insertions count => count ≤ (w.toEditor.filter fun m => m.1 = "workspace/applyEdit").length
  | .messages method count => count ≤ (w.toMarkup.filter (hasMethod method)).length

/-- Lets time pass from alarm to alarm, at most `count` times, until something has happened. -/
def passUntil (target : Target) : Nat → Workspace → Workspace
  | 0, w => w
  | count + 1, w =>
    if w.hasReached target then
      w
    else
      match w.server.debouncer.poll.first? with
      | none => w
      | some (alarm, _) => passUntil target count (w.feed (.tick alarm.due))

/-- A step of the editor. -/
inductive Step where
  | request (method : String) (params : Option Json)
  | notification (method : String) (params : Option Json)
  | await (target : Target)
  deriving Repr, Inhabited

/-- What comes of a step. -/
inductive Outcome where
  | exited
  | answered (result : Except Refusal Json)
  | silent
  | waited
  deriving Inhabited

/-- A step of the editor, and what comes of it. -/
def step (w : Workspace) : Step → Workspace × Outcome
  | .await target => (passUntil target (w.server.debouncer.size + 1) w, .waited)
  | .request method params =>
    if w.server.stage = .exited then
      (w, .exited)
    else
      let after := w.feed (.request (.nat w.answers.length) method params)
      (after, ((after.answers.drop w.answers.length).head?.map .answered).getD .silent)
  | .notification method params =>
    if w.server.stage = .exited then
      (w, .exited)
    else
      (w.feed (.notification method params), .silent)

/-- All steps of the editor, and at last the request to shut down. -/
def run (w : Workspace) : List Step → Workspace × List Outcome
  | [] =>
    let (w, outcome) := w.step (.request "shutdown" none)
    (w, [outcome])
  | s :: steps =>
    let (w, outcome) := w.step s
    let (w, outcomes) := w.run steps
    (w, outcome :: outcomes)

end Workspace

end EmbeddedMarkup.Simulation
