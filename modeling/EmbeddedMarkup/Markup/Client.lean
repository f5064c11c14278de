/-
The client of a markup server as a state machine: which requests wait for an answer, which virtual
documents the server holds, and what is about to be written to it. Requests and the end of the
server's output are made of small steps, each of which is done at once.
-/
import EmbeddedMarkup.Inquiry
import EmbeddedMarkup.Markup.Message

namespace EmbeddedMarkup

/-- A virtual document that the server holds. -/
structure OpenDocument where
  uri : Url
  /-- How often its content was sent since it was opened. -/
  version : Nat
  /-- The content that was sent last. -/
  content : Text
  deriving DecidableEq, Repr, Inhabited

/-- The client of a markup server. -/
structure Client where
  nextId : Nat := 1
  /-- The ids of the requests that wait for an answer. -/
  pending : List Nat := []
  /-- Whether the output of the server has ended, so that no answer can come. -/
  isEnded : Bool := false
  /-- Messages that have not been written yet, in order. -/
  queue : List Outgoing := []
  /-- Whether nothing can be written any more. -/
  isMute : Bool := false
  /-- The virtual documents that the server holds, at most one for each address. -/
  documents : List OpenDocument := []
  deriving Repr, Inhabited

/-- What a step of a client does outside of it. -/
inductive Effect where
  | write (message : Outgoing)
  /-- A request that was waiting gets its response. -/
  | settle (id : Nat) (response : Response)
  | log (line : LogLine)
  deriving Inhabited

namespace Client

/-! ## The writer -/

/-- Queues a message; `none` when nothing can be written any more. -/
def enqueue? (c : Client) (m : Outgoing) : Option Client :=
  if c.isMute then none else some { c with queue := c.queue ++ [m] }

/-- Writes the first message of the queue. When that fails, the queue is given up. -/
def writeNext (c : Client) (succeeds : Bool) : Client × List Effect :=
  match c.queue with
  | [] => (c, [])
  | m :: rest =>
    if succeeds then
      ({ c with queue := rest }, [.write m])
    else
      ({ c with queue := [], isMute := true },
        [.log ⟨.error, "writing to markup server failed", some .io⟩])

/-! ## Requests and notifications -/

/-- Takes the next id for a request, which waits from then on. -/
def register (c : Client) : Client × Nat :=
  ({ c with nextId := c.nextId + 1, pending := c.pending ++ [c.nextId] }, c.nextId)

/-- Takes a request back. -/
def withdraw (c : Client) (id : Nat) : Client :=
  { c with pending := c.pending.filter (· ≠ id) }

/-- Sends a request under an id that is registered, or takes it back when the output of the server
was seen to have ended or nothing can be written any more. -/
def send (c : Client) (sawEnd : Bool) (id : Nat) (method : String) (params : Json) :
    Client × Except MarkupError Nat :=
  match if sawEnd then none else c.enqueue? (.request id method params) with
  | some c => (c, .ok id)
  | none => (c.withdraw id, .error .stopped)

/-- Makes a request: the id under which it waits, or why it cannot be made. The request waits before
it is seen whether the output has ended, so that an end in between does not pass it by. -/
def request (c : Client) (method : String) (params : Json) : Client × Except MarkupError Nat :=
  let (c, id) := c.register
  c.send c.isEnded id method params

/-- Sends a notification, or drops it when nothing can be written any more. -/
def notify (c : Client) (method : String) (params : Json) : Client × List Effect :=
  match c.enqueue? (.notification method params) with
  | some c => (c, [])
  | none => (c, [.log ⟨.debug, "markup server stopped; notification dropped", none⟩])

/-! ## The reader -/

/-- Gives a request its response, if it is waiting. -/
def settle (c : Client) (id : Nat) (response : Response) : Client × List Effect :=
  if id ∈ c.pending then (c.withdraw id, [.settle id response]) else (c, [])

/-- Takes a message from the server. -/
def receive (c : Client) (message : Json) : Client × List Effect :=
  match Incoming.ofJson message with
  | .response id response => if 0 ≤ id then c.settle id.toNat response else (c, [])
  | .strayResponse _ => (c, [.log ⟨.warn, "response with unexpected id", none⟩])
  | .request id result =>
    ((c.enqueue? (.answer id result)).getD c,
      [.log ⟨.debug, "answering markup server request", none⟩])
  | .logMessage text => (c, [.log ⟨.debug, text, none⟩])
  | .other => (c, [])

/-- Takes several messages in order. -/
def receiveAll (c : Client) : List Json → Client × List Effect
  | [] => (c, [])
  | message :: messages =>
    let (c, effects) := c.receive message
    let (c, more) := c.receiveAll messages
    (c, effects ++ more)

/-- Notes that the output of the server has ended. -/
def markEnded (c : Client) : Client :=
  { c with isEnded := true }

/-- Fails the requests with these ids that are waiting. -/
def stopAll (c : Client) : List Nat → Client × List Effect
  | [] => (c, [])
  | id :: ids =>
    let (c, effects) := c.settle id (.error .stopped)
    let (c, more) := c.stopAll ids
    (c, effects ++ more)

/-- The line that is logged when the output of the server ends, by an error or without. -/
def endLine (error : Option MarkupError) : LogLine :=
  if error.isSome then
    ⟨.error, "reading from markup server failed", error⟩
  else
    ⟨.info, "markup server closed its output", none⟩

/-- Takes notice that the output of the server has ended: every request that is waiting fails. -/
def endOutput (c : Client) (error : Option MarkupError) : Client × List Effect :=
  let c := c.markEnded
  let (c, effects) := c.stopAll c.pending
  (c, .log (endLine error) :: effects)

/-! ## Documents -/

/-- The document at an address as the server holds it. -/
def document? (c : Client) (uri : Url) : Option OpenDocument :=
  c.documents.find? fun d => d.uri = uri

/-- Forgets the document at an address. -/
def forget (c : Client) (uri : Url) : Client :=
  { c with documents := c.documents.filter fun d => d.uri ≠ uri }

/-- Notes what the server holds of a document. -/
def hold (c : Client) (d : OpenDocument) : Client :=
  { c with documents := (c.forget d.uri).documents ++ [d] }

/-- Lets the server have the content of a virtual document, if that is not what it has already. -/
def sync (c : Client) (doc : VirtualDocument) : Client × List Effect :=
  match c.document? doc.uri with
  | none =>
    (c.hold ⟨doc.uri, 1, doc.content⟩).notify "textDocument/didOpen" (.obj [
      ("textDocument", .obj [("uri", doc.uri.toJson), ("languageId", .str "html"),
        ("version", .nat 1), ("text", .text doc.content)])])
  | some held =>
    if held.content = doc.content then
      (c, [])
    else
      (c.hold ⟨doc.uri, held.version + 1, doc.content⟩).notify "textDocument/didChange" (.obj [
        ("textDocument", .obj [("uri", doc.uri.toJson), ("version", .nat (held.version + 1))]),
        ("contentChanges", .arr [.obj [("text", .text doc.content)]])])

/-- Closes the virtual document at an address, if the server holds it. -/
def close (c : Client) (uri : Url) : Client × List Effect :=
  match c.document? uri with
  | none => (c, [])
  | some _ =>
    (c.forget uri).notify "textDocument/didClose"
      (.obj [("textDocument", .obj [("uri", uri.toJson)])])

/-- Closes several virtual documents in order. -/
def closeAll (c : Client) : List Url → Client × List Effect
  | [] => (c, [])
  | uri :: uris =>
    let (c, effects) := c.close uri
    let (c, more) := c.closeAll uris
    (c, effects ++ more)

end Client

end EmbeddedMarkup
