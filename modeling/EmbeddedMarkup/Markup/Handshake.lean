/-
The handshake between a markup client and a server that has just been started.
-/
import EmbeddedMarkup.Markup.Client
import EmbeddedMarkup.Protocol.Capabilities
import EmbeddedMarkup.Url.FilePath

namespace EmbeddedMarkup

/-- What the client tells of itself. -/
def Handshake.params (processId : Nat) (root : Option Path) : Json :=
  .obj [
    ("processId", .nat processId),
    ("rootUri", (root.map fun dir => (Url.ofDirectory dir).toJson).getD .null),
    ("initializationOptions", .obj [("provideFormatter", .bool false)]),
    ("capabilities", .obj [("textDocument", .obj [
      ("completion", .obj [("completionItem", .obj [("snippetSupport", .bool true)])]),
      ("hover", .obj [("contentFormat", .arr [.str "markdown", .str "plaintext"])])])])]

namespace Client

/-- Asks the server to start its work. -/
def requestInitialize (c : Client) (processId : Nat) (root : Option Path) :
    Client × Except MarkupError Nat :=
  c.request "initialize" (Handshake.params processId root)

/-- Takes the response to that: the server has to tell of itself, or to answer null. -/
def concludeInitialize (c : Client) (response : Response) :
    Except MarkupError (Client × List Effect) := do
  let result ← response
  match result.nullable? Shape.initializeResult.reduce? with
  | none => .error .malformed
  | some _ => return c.notify "initialized" (.obj [])

end Client

end EmbeddedMarkup
