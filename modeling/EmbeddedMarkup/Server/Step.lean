/-
Steps of the server: one event, and all that the server does about it at once.
-/
import EmbeddedMarkup.Protocol.Unsupported
import EmbeddedMarkup.Server.Lifecycle

namespace EmbeddedMarkup.Server

/-! ## Requests -/

/-- Why nothing is done at this stage for a request that needs a server at work. -/
def refusal? (s : Server) : Option Refusal :=
  match s.stage with
  | .running => none
  | .uninitialized => some .notInitialized
  | .initializing => some .notInitialized
  | .shutDown => some .invalidRequest
  | .exited => some .invalidRequest

/-- The notifications that are known, which get no response when they come as requests. -/
def notifications : List String :=
  ["initialized", "textDocument/didOpen", "textDocument/didChange", "textDocument/willSave",
    "textDocument/didSave", "textDocument/didClose", "workspace/didChangeConfiguration",
    "workspace/didChangeWorkspaceFolders", "workspace/didCreateFiles", "workspace/didRenameFiles",
    "workspace/didDeleteFiles", "workspace/didChangeWatchedFiles"]

/-- A request with parameters that have to be read. -/
def withParams {α : Type} (s : Server) (request : RequestId) (read : Json → Option α)
    (params : Option Json) (use : α → Server × List Action) : Server × List Action :=
  match params.bind read with
  | none => (s, [.respond request (.error .invalidParams)])
  | some a => use a

/-- What is done for a request by a server at work, if the method is known. -/
def serve? (s : Server) (request : RequestId) (method : String) (params : Option Json) :
    Option (Server × List Action) :=
  if method = "uibeam/virtualContent" then
    some (s.withParams request Url.ofContentParams? params fun uri =>
      (s, [.respond request (.ok (.obj [("content", .text (s.session.virtualContent uri))]))]))
  else if notifications.contains method then
    some (s, [])
  else
    match Question.ofMethod? method, Shape.unsupported.lookup method with
    | some read, _ => some (s.withParams request read params (s.ask request))
    | none, some shape =>
      some (s.withParams request shape.reduce? params fun _ =>
        (s, [.respond request (.error .methodNotFound)]))
    | none, none => none

/-- Takes a request. Optional methods that are not known get no response at all. -/
def request (s : Server) (w : Surroundings) (id : RequestId) (method : String)
    (params : Option Json) : Server × List Action :=
  let refuse (r : Refusal) : Server × List Action := (s, [.respond id (.error r)])
  match method with
  | "initialize" =>
    if s.stage = .uninitialized then
      s.withParams id Workplace.ofParams? params (s.meet w id)
    else
      refuse .invalidRequest
  | "shutdown" =>
    match s.refusal? with
    | some r => refuse r
    | none =>
      let s := { s with stage := .shutDown }
      if params.isNone then s.shutdown id else (s, [.respond id (.error .invalidParams)])
  | "exit" => ({ s with stage := .exited }, [])
  | _ =>
    match s.serve? id method params with
    | none => if method.startsWith "$/" then (s, []) else refuse .methodNotFound
    | some result =>
      match s.refusal? with
      | some r => refuse r
      | none => result

/-! ## Notifications -/

/-- What a server at work does for a notification. -/
def notice (s : Server) (method : String) (params : Json) : Server × List Action :=
  match method with
  | "initialized" =>
    if (Shape.record []).fits params then (s, [.display "uibeam language server initialized"])
    else (s, [])
  | "textDocument/didOpen" => ((OpenedDocument.ofParams? params).map s.opened).getD (s, [])
  | "textDocument/didChange" => ((ChangedDocument.ofParams? params).map s.changed).getD (s, [])
  | "textDocument/didClose" => ((Url.ofCloseParams? params).map s.closed).getD (s, [])
  | _ => (s, [])

/-- Takes a notification. Those that make no sense are ignored. -/
def notification (s : Server) (method : String) (params : Option Json) : Server × List Action :=
  match method with
  | "exit" => ({ s with stage := .exited }, [])
  | "shutdown" => (if s.stage = .running then { s with stage := .shutDown } else s, [])
  | _ =>
    match s.stage, params with
    | .running, some params => s.notice method params
    | _, _ => (s, [])

/-! ## All events -/

/-- A step of the markup client, and what it brings about. -/
def markupStep (s : Server) (f : Client → Client × List Effect) : Server × List Action :=
  match s.markup with
  | none => (s, [])
  | some c =>
    let (c, effects) := f c
    { s with markup := some c }.absorb effects

/-- Does what an event asks for. A server that has exited is deaf to the editor. -/
def step (w : Surroundings) (s : Server) : Event → Server × List Action
  | .request id method params => if s.stage = .exited then (s, []) else s.request w id method params
  | .notification method params =>
    if s.stage = .exited then (s, []) else s.notification method params
  | .inserted ticket => (s.setPhase ticket .finished, [])
  | .markupMessage message => s.markupStep fun c => c.receive message
  | .markupEnded error => s.markupStep fun c => c.endOutput error
  | .markupWrite succeeds => s.markupStep fun c => c.writeNext succeeds
  | .tick now => s.tick now

/-- Does what several events ask for, one after the other. -/
def run (w : Surroundings) (s : Server) : List Event → Server × List Action
  | [] => (s, [])
  | event :: events =>
    let (s, actions) := s.step w event
    let (s, more) := s.run w events
    (s, actions ++ more)

end EmbeddedMarkup.Server
