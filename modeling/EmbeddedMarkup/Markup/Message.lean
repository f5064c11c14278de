/-
Messages between a markup client and its server: requests, which are answered under their id, and
notifications, which are not. Both sides may send either.
-/
import EmbeddedMarkup.Markup.Error

namespace EmbeddedMarkup

/-! ## To the server -/

/-- A message to the server. -/
inductive Outgoing where
  | request (id : Nat) (method : String) (params : Json)
  | notification (method : String) (params : Json)
  /-- The answer to a request of the server, under the id that the server chose. -/
  | answer (id : Json) (result : Json)
  deriving Repr, Inhabited

/-- A message to the server as JSON. -/
def Outgoing.toJson : Outgoing → Json
  | request id method params =>
    .obj [("jsonrpc", .str "2.0"), ("id", .nat id), ("method", .str method), ("params", params)]
  | notification method params =>
    .obj [("jsonrpc", .str "2.0"), ("method", .str method), ("params", params)]
  | answer id result => .obj [("jsonrpc", .str "2.0"), ("id", id), ("result", result)]

/-! ## From the server -/

/-- What came of a request. -/
abbrev Response := Except MarkupError Json

/-- A message from the server. -/
inductive Incoming where
  | response (id : Int) (response : Response)
  /-- An answer under an id that no request can have. -/
  | strayResponse (id : Json)
  /-- A request, and the answer that it gets. -/
  | request (id : Json) (result : Json)
  | logMessage (text : String)
  | other
  deriving Repr, Inhabited

namespace Incoming

/-- The response in a message: an error if it has one, and otherwise its result. -/
def responseOf (message : Json) : Response :=
  match message.get? "error" with
  | some error =>
    .error (.server (((error.get? "code").bind Json.int64?).getD 0)
      (((error.get? "message").bind Json.str?).getD ""))
  | none => .ok ((message.get? "result").getD .null)

/-- The answer to a request of the server: for a question about settings as many nulls as it has
items, and else null. -/
def answerTo (method : String) (message : Json) : Json :=
  if method = "workspace/configuration" then
    let items := ((message.get? "params").bind (·.get? "items")).bind Json.arr?
    .arr ((items.getD []).map fun _ => .null)
  else
    .null

/-- The line for the log in a notification. -/
def logText? (message : Json) : Option String :=
  ((message.get? "params").bind (·.get? "message")).bind Json.str?

/-- What a message is: one with an id and a method is a request, one with an id alone a response. -/
def ofJson (message : Json) : Incoming :=
  match message.get? "id", (message.get? "method").bind Json.str? with
  | some id, none =>
    match id.int64? with
    | some id => response id (responseOf message)
    | none => strayResponse id
  | some id, some method => request id (answerTo method message)
  | none, some method =>
    if method = "window/logMessage" then ((logText? message).map logMessage).getD other else other
  | none, none => other

end Incoming

end EmbeddedMarkup
