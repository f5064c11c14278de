/-
The editor's side of the server: messages of the editor as events, and actions as messages to it.
-/
import EmbeddedMarkup.Server.Basic

namespace EmbeddedMarkup

/-- What is told of a refusal. -/
def Refusal.message : Refusal → String
  | notInitialized => "Server not initialized"
  | invalidRequest => "Invalid request"
  | methodNotFound => "Method not found"
  | invalidParams => "Invalid params"

/-- The event that a message of the editor is: with an id and a method a request, with a method
alone a notification, and with an id alone the answer to the request for an insertion. -/
def Event.ofEditor? (message : Json) : Option Event :=
  match message.get? "id", (message.get? "method").bind Json.str? with
  | some id, some method => some (.request id method (message.get? "params"))
  | none, some method => some (.notification method (message.get? "params"))
  | some id, none => id.nat64?.map .inserted
  | none, none => none

namespace Action

/-- The method and the parameters of what the server wants of the editor. -/
def call? : Action → Option (String × Json)
  | display message =>
    some ("window/logMessage", .obj [("type", .nat 3), ("message", .str message)])
  | insert _ insertion => some ("workspace/applyEdit", .obj [("edit", insertion.toJson)])
  | _ => none

/-- The message to the editor that an action is. -/
def toEditor? (action : Action) : Option Json :=
  let version := ("jsonrpc", Json.str "2.0")
  match action with
  | respond id (.ok result) => some (.obj [version, ("id", id), ("result", result)])
  | respond id (.error r) =>
    some (.obj [version, ("id", id),
      ("error", .obj [("code", .int r.code), ("message", .str r.message)])])
  | insert ticket _ =>
    action.call?.map fun c =>
      .obj [version, ("id", .nat ticket), ("method", .str c.1), ("params", c.2)]
  | _ => action.call?.map fun c => .obj [version, ("method", .str c.1), ("params", c.2)]

end Action

end EmbeddedMarkup
