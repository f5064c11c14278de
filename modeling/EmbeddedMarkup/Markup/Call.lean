/-
Calls: what the users of a markup client ask of it, from the first step to the result.
-/
import EmbeddedMarkup.Markup.Client

namespace EmbeddedMarkup

/-! ## Queries -/

/-- The reply that a response gives to a query. A response of null is no reply, and neither is one
that fails or is not of the right kind, of which a line is logged. -/
def Query.conclude (q : Query) (response : Response) : Option q.Reply × List Effect :=
  let failure (e : MarkupError) : Option q.Reply × List Effect :=
    (none, [.log ⟨.warn, "markup request failed", some e⟩])
  match response with
  | .error e => failure e
  | .ok j =>
    match j.nullable? q.replyOfJson? with
    | some reply => (reply, [])
    | none => failure .malformed

/-- Asks the server about a position in a virtual document. -/
def Client.ask (c : Client) (doc : VirtualDocument) (q : Query) (p : Position) :
    Client × Except MarkupError Nat :=
  c.request q.method (q.params doc.uri p)

/-! ## Shutting down -/

/-- Asks the server to shut down. -/
def Client.requestShutdown (c : Client) : Client × Except MarkupError Nat :=
  c.request "shutdown" .null

/-- Lets the server exit once it has responded to the request to shut down, whatever it says. -/
def Client.concludeShutdown (c : Client) (response : Response) : Client × List Effect :=
  let lines : List Effect := match response with
    | .error e => [.log ⟨.debug, "markup server shutdown request failed", some e⟩]
    | .ok _ => []
  let (c, effects) := c.notify "exit" .null
  (c, lines ++ effects)

/-! ## All calls -/

/-- A call to a markup client. -/
inductive Call where
  | sync (doc : VirtualDocument)
  | close (uri : Url)
  | ask (doc : VirtualDocument) (query : Query) (position : Position)
  | shutdown
  deriving DecidableEq, Repr, Inhabited

/-- How far a call is. -/
inductive Progress where
  /-- It has its result, which is null for a call without one. -/
  | ready (result : Json)
  | waiting (id : Nat)
  deriving Inhabited

namespace Call

/-- Ends a call with the response to its request. -/
def conclude (call : Call) (c : Client) (response : Response) : Client × List Effect × Json :=
  match call with
  | ask _ query _ =>
    let (reply, effects) := query.conclude response
    (c, effects, (reply.map query.replyToJson).getD .null)
  | shutdown =>
    let (c, effects) := c.concludeShutdown response
    (c, effects, .null)
  | _ => (c, [], .null)

/-- What is known of a call right after its request: that it waits, or that it failed at once. -/
def await (call : Call) : Client × Except MarkupError Nat → Client × List Effect × Progress
  | (c, .ok id) => (c, [], .waiting id)
  | (c, .error e) =>
    let (c, effects, result) := call.conclude c (.error e)
    (c, effects, .ready result)

/-- Makes a call. -/
def start (call : Call) (c : Client) : Client × List Effect × Progress :=
  match call with
  | sync doc =>
    let (c, effects) := c.sync doc
    (c, effects, .ready .null)
  | close uri =>
    let (c, effects) := c.close uri
    (c, effects, .ready .null)
  | ask doc query p => call.await (c.ask doc query p)
  | shutdown => call.await c.requestShutdown

end Call

end EmbeddedMarkup
