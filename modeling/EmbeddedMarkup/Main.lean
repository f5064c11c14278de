/-
The command line: the server on standard input and output. It cannot run other programs, so that it
works without a markup server.
-/
import EmbeddedMarkup.Markup.Frame
import EmbeddedMarkup.Server.Editor
import EmbeddedMarkup.Server.Step

namespace EmbeddedMarkup.Main

/-- A world without files and programs. -/
def bareSurroundings : Surroundings where
  files := {}
  spawn _ _ := some "programs cannot be run here"
  processId := 0

/-- Sends the editor what an action has for it. -/
def perform (output : IO.FS.Stream) (action : Action) : IO Unit :=
  match action.toEditor? with
  | none => pure ()
  | some message => do
    output.write (ByteArray.mk (Frame.encode message).toArray)
    output.flush

/-- Takes messages of the editor in order. -/
def takeMessages (output : IO.FS.Stream) (s : Server) : List Json → IO Server
  | [] => pure s
  | message :: messages =>
    match Event.ofEditor? message with
    | none => takeMessages output s messages
    | some event => do
      let (s, actions) := s.step bareSurroundings event
      actions.forM (perform output)
      takeMessages output s messages

/-- Reads messages until the input ends, it makes no sense, or the server has to exit. -/
partial def serve (input output : IO.FS.Stream) (s : Server) (unread : List UInt8) : IO Unit := do
  let bytes ← input.read 4096
  let (messages, unread, status) := Frame.readAll bytes.isEmpty (unread ++ bytes.toList)
  let s ← takeMessages output s messages
  if s.stage ≠ .exited && status = .running then
    serve input output s unread

end EmbeddedMarkup.Main

/-- Runs the server. -/
def main : IO Unit := do
  EmbeddedMarkup.Main.serve (← IO.getStdin) (← IO.getStdout) {} []
