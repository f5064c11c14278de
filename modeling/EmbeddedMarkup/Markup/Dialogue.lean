/-
Dialogues: calls to a client, one after the other, while every byte that the server sends is given.
A call that has no result when the server has sent all that it sends with it is abandoned.
-/
import EmbeddedMarkup.Markup.Call
import EmbeddedMarkup.Markup.Connection

namespace EmbeddedMarkup.Dialogue

/-- What a server sends at one time. -/
inductive Portion where
  | bytes (bytes : List UInt8)
  | ending
  deriving Repr, Inhabited

/-- A step of a dialogue. -/
inductive Step where
  /-- A call, and what the server sends after it. -/
  | call (call : Call) (portions : List Portion)
  /-- What the server sends on its own. -/
  | serve (portions : List Portion)
  /-- The server takes nothing any more. -/
  | hangUp
  deriving Repr, Inhabited

/-- The response that effects give to a request. -/
def responseIn? (id : Nat) (effects : List Effect) : Option Response :=
  effects.findSome? fun e =>
    match e with
    | .settle i response => if i = id then some response else none
    | _ => none

/-- Goes on with a call when its request has got a response. -/
def resume (c : Connection) (call : Call) (progress : Progress) (effects : List Effect) :
    Connection × List Effect × Progress :=
  match progress with
  | .ready result => (c, effects, .ready result)
  | .waiting id =>
    match responseIn? id effects with
    | none => (c, effects, .waiting id)
    | some response =>
      let (c, more, result) := c.run fun client => call.conclude client response
      (c, effects ++ more, .ready result)

/-- Takes what the server sends at one time. -/
def take (c : Connection) : Portion → Connection × List Effect
  | .bytes bytes => c.receive bytes false
  | .ending => c.receive [] true

/-- Takes all that the server sends during a call. -/
def during (call : Call) (c : Connection) (progress : Progress) :
    List Portion → Connection × List Effect × Progress
  | [] => (c, [], progress)
  | portion :: portions =>
    let (c, effects) := take c portion
    let (c, effects, progress) := resume c call progress effects
    let (c, more, progress) := during call c progress portions
    (c, effects ++ more, progress)

/-- Takes all that the server sends on its own. -/
def serve (c : Connection) : List Portion → Connection × List Effect
  | [] => (c, [])
  | portion :: portions =>
    let (c, effects) := take c portion
    let (c, more) := serve c portions
    (c, effects ++ more)

/-- A step: the connection afterwards, what happened, and how far the call is if there is one. -/
def step (c : Connection) : Step → Connection × List Effect × Option Progress
  | .call call portions =>
    let (c, effects, progress) := c.run call.start
    let (c, more, progress) := during call c progress portions
    (c, effects ++ more, some progress)
  | .serve portions =>
    let (c, effects) := serve c portions
    (c, effects, none)
  | .hangUp => (c.hangUp, [], none)

end EmbeddedMarkup.Dialogue
