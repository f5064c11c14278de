/-
What a markup server has been told: `replay` takes the notifications about documents and gives the
`MarkupView` of the documents that are open at the server with their contents. What was sent `Grows`
message by message, and `Allows` says when a query may follow: the server then holds the very content
that it is about.
-/
import EmbeddedMarkup.Markup.Client
import EmbeddedMarkup.Proofs.Protocol
import Mathlib.Logic.Function.Basic

namespace EmbeddedMarkup

/-! ## The server's view -/

/-- What a markup server holds: the content of each open document, by the text of its address. -/
abbrev MarkupView := String → Option Text

namespace MarkupView

/-- A server without documents. -/
def empty : MarkupView := fun _ => none

/-- The address of the document that a message is about. -/
def address? (params : Json) : Option String :=
  ((params.get? "textDocument").bind (·.get? "uri")).bind Json.str?

/-- The text of the document that a notification opens. -/
def text? (params : Json) : Option Text :=
  ((params.get? "textDocument").bind (·.get? "text")).bind Json.text?

/-- The changes that a notification tells of. -/
def changes? (params : Json) : Option (List Change) :=
  (params.get? "contentChanges").bind (Json.list? Change.ofJson?)

/-- What the server holds after a message: only the three notifications about documents matter. -/
def take (view : MarkupView) : Outgoing → MarkupView
  | .notification method params =>
    match method, address? params with
    | "textDocument/didOpen", some uri => Function.update view uri ((text? params).or (view uri))
    | "textDocument/didChange", some uri =>
      Function.update view uri ((view uri).map fun t => Change.applyAll t ((changes? params).getD []))
    | "textDocument/didClose", some uri => Function.update view uri none
    | _, _ => view
  | _ => view

/-- What the server holds after a list of messages, by `take`. -/
def replay (messages : List Outgoing) : MarkupView :=
  messages.foldl take empty

/-- The `params` of a query name its document to the server. -/
theorem address?_params (q : Query) (uri : Url) (p : Position) : address? (q.params uri p) = some uri.toString := by
  unfold address?
  rw [(q.get?_params uri p).1]; rfl

@[simp] theorem replay_append_singleton (messages : List Outgoing) (m : Outgoing) :
    replay (messages ++ [m]) = (replay messages).take m := by
  rw [replay, List.foldl_append]; rfl

end MarkupView

/-! ## Messages that may be sent -/

/-- Whether a message may be sent to a server that holds `view` while the session is `s`. A request
other than those for starting and stopping has to be a query about a position in a virtual document
of the session, of which the server holds the content. -/
def Session.Allows (s : Session) (view : MarkupView) : Outgoing → Prop
  | .request _ method params => method = "initialize" ∨ method = "shutdown" ∨
    ∃ uri p i, s.inquire? uri p = some i ∧ ∃ q : Query, method = q.method ∧
      params = q.params i.target.uri i.position ∧ view i.target.uri.toString = some i.target.content
  | _ => True

/-- What was sent grows message by message while the session is `s`. -/
inductive Session.Grows (s : Session) (sent : List Outgoing) : List Outgoing → Prop where
  | refl : Grows s sent sent
  | send {more : List Outgoing} {m : Outgoing} (h : Grows s sent more) (hm : s.Allows (.replay more) m) :
    Grows s sent (more ++ [m])

namespace Session.Grows

variable {s : Session} {a b c : List Outgoing}

theorem trans (h : s.Grows a b) (h' : s.Grows b c) : s.Grows a c := by
  induction h' with
  | refl => exact h
  | send _ hm ih => exact .send ih hm

theorem isPrefix (h : s.Grows a b) : a <+: b := by
  induction h with
  | refl => exact List.prefix_refl _
  | send _ _ ih => exact ih.trans (List.prefix_append _ _)

/-- What `Grows` by a message was allowed to when it was sent. -/
theorem allows (h : s.Grows a b) {before after : List Outgoing} {m : Outgoing} (hb : b = before ++ m :: after)
    (ha : a <+: before) : s.Allows (.replay before) m := by
  induction h generalizing after with
  | refl =>
    have := ha.length_le
    rw [hb, List.length_append, List.length_cons] at this
    omega
  | send h hm ih =>
    -- the message is the last one sent, or one of those before
    rcases List.eq_nil_or_concat after with rfl | ⟨after, x, rfl⟩
    · obtain ⟨rfl, hx⟩ := List.append_inj' hb rfl
      cases hx
      exact hm
    · rw [List.concat_eq_append, ← List.cons_append, ← List.append_assoc] at hb
      obtain ⟨hb, -⟩ := List.append_inj' hb rfl
      exact ih hb

end Session.Grows

end EmbeddedMarkup
