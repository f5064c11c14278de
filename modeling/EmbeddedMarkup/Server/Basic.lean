/-
The language server: its state, what reaches it from outside, and what it does there.
-/
import EmbeddedMarkup.AutoInsert
import EmbeddedMarkup.Debouncer.Basic
import EmbeddedMarkup.Markup.Client
import EmbeddedMarkup.Settings.Discovery

namespace EmbeddedMarkup

/-! ## The state -/

/-- Where the server is in its life. -/
inductive Stage where
  | uninitialized
  | initializing
  | running
  | shutDown
  | exited
  deriving DecidableEq, Repr, Inhabited

/-- The name by which the editor knows a request. -/
abbrev RequestId := Json

/-- An automatic insertion that is put off. -/
structure InsertionJob where
  /-- The version of the document after the change that set it off. -/
  version : Int
  trigger : AutoInsert.Trigger
  deriving DecidableEq, Repr, Inhabited

/-- What goes on when the markup server responds. -/
inductive Continuation where
  /-- The handshake, and with it the answer to the editor's first request. -/
  | handshake (request : RequestId)
  | answer (request : RequestId) (inquiry : Inquiry) (query : Query)
  | insertion (task : Task InsertionJob) (inquiry : Inquiry)
  | shutdown (request : RequestId)
  deriving Inhabited

/-- The state of the server. -/
structure Server where
  stage : Stage := .uninitialized
  settings : Settings := {}
  session : Session := {}
  debouncer : Debouncer InsertionJob := {}
  markup : Option Client := none
  /-- What waits for the response to a request to the markup server, by the id of the request. -/
  waiting : List (Nat × Continuation) := []
  deriving Inhabited

/-! ## The outside -/

/-- Why a request is refused. -/
inductive Refusal where
  | notInitialized
  | invalidRequest
  | methodNotFound
  | invalidParams
  deriving DecidableEq, Repr, Inhabited

/-- The number of a refusal. -/
def Refusal.code : Refusal → Int
  | notInitialized => -32002
  | invalidRequest => -32600
  | methodNotFound => -32601
  | invalidParams => -32602

/-- What the server finds outside when it starts. -/
structure Surroundings where
  files : FileTree
  /-- Runs a program in a directory; the result is why that fails, if it does. -/
  spawn : MarkupSettings → Option Path → Option String
  processId : Nat

/-- What happens to the server. -/
inductive Event where
  | request (id : RequestId) (method : String) (params : Option Json)
  | notification (method : String) (params : Option Json)
  /-- The editor has answered the request to make an insertion. -/
  | inserted (ticket : Nat)
  | markupMessage (message : Json)
  /-- The output of the markup server ends, by an error or without. -/
  | markupEnded (error : Option MarkupError)
  /-- The next message to the markup server is written, or that fails. -/
  | markupWrite (succeeds : Bool)
  | tick (now : Nat)
  deriving Inhabited

/-- What the server does outside. -/
inductive Action where
  | respond (id : RequestId) (result : Except Refusal Json)
  | display (message : String)
  | insert (ticket : Nat) (insertion : AutoInsert.Insertion)
  | write (message : Outgoing)
  | log (line : LogLine)
  deriving Inhabited

/-- The action that an effect of the client is; a response is no action of the server. -/
def Action.ofEffect? : Effect → Option Action
  | .write message => some (.write message)
  | .log line => some (.log line)
  | .settle _ _ => none

/-- The actions that effects of the client are. -/
def Action.ofEffects (effects : List Effect) : List Action :=
  effects.filterMap ofEffect?

end EmbeddedMarkup
