/-
Sessions: the host documents that an editor has open, each in its latest version.
-/
import EmbeddedMarkup.HostDocument

namespace EmbeddedMarkup

/-- The open host documents, at most one for each address. -/
structure Session where
  /-- The documents, the one opened last at the end. -/
  documents : List HostDocument := []
  deriving DecidableEq, Repr, Inhabited

namespace Session

/-- The open document with this address. -/
def get? (s : Session) (uri : Url) : Option HostDocument :=
  s.documents.find? fun d => d.uri = uri

/-- The session without the document at an address. -/
def erase (s : Session) (uri : Url) : Session :=
  ⟨s.documents.filter fun d => d.uri ≠ uri⟩

/-- Puts a new version of a document in place, whether the document was open or not: the session
afterwards, the new version and the one it replaces. -/
def put (s : Session) (uri : Url) (text : Text) (version : Int) :
    Session × HostDocument × Option HostDocument :=
  let d := HostDocument.make uri text version
  (⟨(s.erase uri).documents ++ [d]⟩, d, s.get? uri)

/-- Puts the version in place that a list of changes makes of an open document; `none` when the
document is not open. -/
def change? (s : Session) (uri : Url) (changes : List Change) (version : Int) :
    Option (Session × HostDocument × Option HostDocument) :=
  (s.get? uri).map fun d => s.put uri (Change.applyAll d.text changes) version

/-- Closes a document: the session afterwards and the version that was open. -/
def close (s : Session) (uri : Url) : Session × Option HostDocument :=
  (s.erase uri, s.get? uri)

/-- What an editor does to its documents. -/
inductive Step where
  /-- Opens a document, or replaces its text. -/
  | put (uri : Url) (text : Text) (version : Int)
  | change (uri : Url) (changes : List Change) (version : Int)
  | close (uri : Url)
  deriving DecidableEq, Repr, Inhabited

/-- The session after a step. -/
def step (s : Session) : Step → Session
  | .put uri text version => (s.put uri text version).1
  | .change uri changes version => ((s.change? uri changes version).map (·.1)).getD s
  | .close uri => (s.close uri).1

/-- The session after a list of steps. -/
def run (s : Session) (steps : List Step) : Session :=
  steps.foldl step s

/-- Whether a document is open in exactly this version. -/
def isCurrent (s : Session) (uri : Url) (version : Int) : Bool :=
  (s.get? uri).any fun d => d.version = version

/-- The number of open documents. -/
def size (s : Session) : Nat :=
  s.documents.length

/-- The content behind a virtual URI, empty for one that leads nowhere. -/
def virtualContent (s : Session) (uri : Url) : Text :=
  match VirtualUri.ofUrl? uri with
  | none => []
  | some (.masked host) => ((s.get? host).map HostDocument.masked).getD []
  | some (.region host index) =>
    (((s.get? host).bind fun d => d.documents[index]?).map (·.content)).getD []

end Session

end EmbeddedMarkup
