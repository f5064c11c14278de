/-
Questions of the editor: the markup server is asked, and the editor answered when it responds.
-/
import EmbeddedMarkup.Markup.Call
import EmbeddedMarkup.Server.Documents

namespace EmbeddedMarkup.Server

/-- Lets something wait for the response to a request. -/
def wait (s : Server) (id : Nat) (next : Continuation) : Server :=
  { s with waiting := s.waiting ++ [(id, next)] }

/-- Asks the markup server: the id of the request to wait for, if there is a reply to wait for. -/
def consult (s : Server) (i : Inquiry) (q : Query) : Server × List Action × Option Nat :=
  match s.markup with
  | none => (s, [], none)
  | some c =>
    let (c, effects) := c.sync i.target
    match c.ask i.target q i.position with
    | (c, .ok id) => ({ s with markup := some c }, Action.ofEffects effects, some id)
    | (c, .error e) =>
      ({ s with markup := some c }, Action.ofEffects (effects ++ (q.conclude (.error e)).2), none)

/-- Answers a question with what came of it. -/
def answer (request : RequestId) (q : Query) (result : Option q.Reply) : Action :=
  .respond request (.ok ((result.map q.replyToJson).getD .null))

/-- Takes a question. -/
def ask (s : Server) (request : RequestId) (question : Question) : Server × List Action :=
  let q := question.query
  match s.session.inquire? question.uri question.position with
  | none => (s, [answer request q none])
  | some i =>
    match s.consult i q with
    | (s, actions, some id) => (s.wait id (.answer request i q), actions)
    | (s, actions, none) => (s, actions ++ [answer request q none])

/-- Answers a question when the markup server has responded. -/
def concludeAnswer (s : Server) (request : RequestId) (i : Inquiry) (q : Query)
    (response : Response) : Server × List Action :=
  let (reply, effects) := q.conclude response
  (s, Action.ofEffects effects ++ [answer request q (i.settle s.session q reply)])

end EmbeddedMarkup.Server
