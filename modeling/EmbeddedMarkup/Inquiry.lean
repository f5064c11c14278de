/-
Inquiries: the way of a question from a position in a host document to a markup service and back.
The virtual document at the position is brought up to date and asked about; the reply counts only if
the host document is still in the version that the question was about.
-/
import EmbeddedMarkup.Query
import EmbeddedMarkup.Session

namespace EmbeddedMarkup

/-- A question under way, about a position in the virtual document `target`. -/
structure Inquiry where
  /-- The host document as it was when the question came. -/
  host : HostDocument
  target : VirtualDocument
  position : Position
  deriving DecidableEq, Repr, Inhabited

/-- What is asked of a markup service. -/
inductive ServiceCall where
  /-- To take notice of the content of a virtual document. -/
  | sync (doc : VirtualDocument)
  /-- To answer a query about a position in it. -/
  | ask (doc : VirtualDocument) (query : Query) (position : Position)
  deriving DecidableEq, Repr, Inhabited

/-- The inquiry about a host position; there is none outside of all virtual documents. -/
def Session.inquire? (s : Session) (uri : Url) (p : Position) : Option Inquiry := do
  let host ← s.get? uri
  let (target, position) ← host.documentAt? p
  return { host, target, position }

namespace Inquiry

/-- Whether the host document is still in the version that the question was about. -/
def isCurrent (i : Inquiry) (s : Session) : Bool :=
  s.isCurrent i.host.uri i.host.version

/-- The outcome of an inquiry whose reply comes when the session is `s`. -/
def settle (i : Inquiry) (s : Session) (q : Query) (reply : Option q.Reply) : Option q.Reply :=
  reply.bind fun r => if i.isCurrent s then q.toHost? i.host i.target r else none

/-- The calls that an inquiry makes. -/
def calls (i : Inquiry) (q : Query) : List ServiceCall :=
  [.sync i.target, .ask i.target q i.position]

end Inquiry

/-- What came of a question: its result, the session afterwards and the calls made for it. -/
structure Outcome (α : Type) where
  result : Option α
  session : Session
  calls : List ServiceCall

/-- Asks about a host position. The steps are those that the editor takes while the service is busy
with the query, so none of them when it is not asked. -/
def Query.run (q : Query) (s : Session) (uri : Url) (p : Position) (steps : List Session.Step)
    (reply : Option q.Reply) : Outcome q.Reply :=
  match s.inquire? uri p with
  | none => ⟨none, s, []⟩
  | some i => ⟨i.settle (s.run steps) q reply, s.run steps, i.calls q⟩

end EmbeddedMarkup
