/-
The life of the server: meeting the editor, for which the settings are read and the markup server is
started, and shutting down.
-/
import EmbeddedMarkup.Markup.Handshake
import EmbeddedMarkup.Server.Insertions

namespace EmbeddedMarkup.Server

/-- What the server tells the editor of itself. -/
def introduction : Json :=
  .obj [
    ("capabilities", .obj [
      ("textDocumentSync", .nat 2),
      ("hoverProvider", .bool true),
      ("completionProvider", .obj [("resolveProvider", .bool false),
        ("triggerCharacters", .arr [.str "<", .str ">"])]),
      ("definitionProvider", .bool true),
      ("linkedEditingRangeProvider", .bool true)]),
    ("serverInfo", .obj [("name", .str "uibeam-lsp"), ("version", .str "0.1.0")])]

/-- Is ready for work, with a client of the markup server or without. -/
def ready (s : Server) (request : RequestId) (markup : Option Client) : Server × List Action :=
  ({ s with stage := .running, markup }, [.respond request (.ok introduction)])

/-- Is ready for work without a markup server. -/
def readyWithout (s : Server) (request : RequestId) (e : MarkupError) : Server × List Action :=
  let (s, actions) := s.ready request none
  (s, .log ⟨.warn, "markup language server unavailable; UI! features disabled", some e⟩ :: actions)

/-- The directory where an editor works: its first folder, or else what it names as its root. -/
def rootOf (place : Workplace) : Option Path :=
  (place.folders.head?.bind Url.toPath?).or (place.root.bind Url.toPath?)

/-- Meets the editor. -/
def meet (s : Server) (w : Surroundings) (request : RequestId) (place : Workplace) :
    Server × List Action :=
  let root := rootOf place
  let settings := (root.map fun dir => (Settings.discover w.files dir).1).getD {}
  let s := { s with settings }
  match w.spawn settings.markup root with
  | some reason => s.readyWithout request (.spawn settings.markup.command reason)
  | none =>
    match ({} : Client).requestInitialize w.processId root with
    | (_, .error e) => s.readyWithout request e
    | (c, .ok id) =>
      ({ s with stage := .initializing, markup := some c }.wait id (.handshake request), [])

/-- Ends the handshake with the markup server. -/
def concludeHandshake (s : Server) (request : RequestId) (response : Response) :
    Server × List Action :=
  match s.markup with
  | none => (s, [])
  | some c =>
    match c.concludeInitialize response with
    | .error e => s.readyWithout request e
    | .ok (c, effects) =>
      let (s, actions) := s.ready request (some c)
      (s, Action.ofEffects effects ++ actions)

/-- Begins to shut down. -/
def shutdown (s : Server) (request : RequestId) : Server × List Action :=
  match s.markup with
  | none => (s, [.respond request (.ok .null)])
  | some c =>
    match c.requestShutdown with
    | (c, .ok id) => ({ s with markup := some c }.wait id (.shutdown request), [])
    | (c, .error e) =>
      let (c, effects) := c.concludeShutdown (.error e)
      ({ s with markup := some c }, Action.ofEffects effects ++ [.respond request (.ok .null)])

/-- Ends shutting down. -/
def concludeShutdown (s : Server) (request : RequestId) (response : Response) :
    Server × List Action :=
  let (s, actions) := s.onClient fun c => c.concludeShutdown response
  (s, actions ++ [.respond request (.ok .null)])

/-- Goes on with what waits for the response to a request. -/
def resume (s : Server) (id : Nat) (response : Response) : Server × List Action :=
  match s.waiting.lookup id with
  | none => (s, [])
  | some next =>
    let s := { s with waiting := s.waiting.filter fun w => w.1 ≠ id }
    match next with
    | .handshake request => s.concludeHandshake request response
    | .answer request i q => s.concludeAnswer request i q response
    | .insertion task i => s.concludeInsertion task i response
    | .shutdown request => s.concludeShutdown request response

/-- Takes the effects of a step of the client: actions are passed on, and responses are dealt
with. -/
def absorb (s : Server) : List Effect → Server × List Action
  | [] => (s, [])
  | effect :: effects =>
    let (s, actions) := match effect with
      | .settle id response => s.resume id response
      | effect => (s, Action.ofEffects [effect])
    let (s, more) := s.absorb effects
    (s, actions ++ more)

end EmbeddedMarkup.Server
