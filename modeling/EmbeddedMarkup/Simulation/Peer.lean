/-
Simulated markup servers: what they send when they are started and when a message reaches them.
-/
import EmbeddedMarkup.Markup.Message

namespace EmbeddedMarkup.Simulation

/-- How a scripted server deals with a request. -/
structure Reply where
  before : List Json := []
  /-- The field that makes the answer; without one, the server exits instead of answering. -/
  answer : Option (String × Json)
  deriving Repr, Inhabited

/-- A simulated markup server. -/
inductive Peer where
  /-- It sends back whatever it gets. -/
  | echo
  /-- It answers requests after a script: the replies to come for each method. -/
  | script (replies : List (String × List Reply))
  | gone
  deriving Repr, Inhabited

/-- What a peer sends. -/
structure Reaction where
  messages : List Json := []
  /-- Whether its output ends behind them. -/
  isEnd : Bool := false
  deriving Repr, Inhabited

namespace Peer

/-- What a scripted server answers when its script says nothing. -/
def usualReply (method : String) : Reply :=
  let result := if method = "initialize" then .obj [("capabilities", .obj [])] else .null
  { answer := some ("result", result) }

/-- The next reply to a method, and the replies that are left. -/
def takeReply (replies : List (String × List Reply)) (method : String) :
    Reply × List (String × List Reply) :=
  match replies.lookup method with
  | some (reply :: rest) =>
    (reply, replies.map fun r => if r.1 == method then (method, rest) else r)
  | _ => (usualReply method, replies)

/-- A reply to the request with an id. -/
def replyTo (id : Nat) (reply : Reply) : Reaction :=
  match reply.answer with
  | none => { messages := reply.before, isEnd := true }
  | some field =>
    { messages := reply.before ++ [.obj [("jsonrpc", .str "2.0"), ("id", .nat id), field]] }

/-- What a peer does about a message. -/
def react (peer : Peer) (message : Outgoing) : Peer × Reaction :=
  match peer, message with
  | echo, _ => (echo, { messages := [message.toJson] })
  | script replies, .request id method _ =>
    let (reply, replies) := takeReply replies method
    let reaction := replyTo id reply
    (if reaction.isEnd then gone else script replies, reaction)
  | script replies, .notification method _ =>
    if method = "exit" then (gone, { isEnd := true }) else (script replies, {})
  | script replies, .answer _ _ => (script replies, {})
  | gone, _ => (gone, {})

/-- Whether messages still reach a peer. -/
def isThere : Peer → Bool
  | gone => false
  | _ => true

end Peer

end EmbeddedMarkup.Simulation
