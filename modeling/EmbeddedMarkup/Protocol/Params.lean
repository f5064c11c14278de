/-
The parameters of the messages that an editor sends.
-/
import EmbeddedMarkup.Protocol.Capabilities
import EmbeddedMarkup.Query

namespace EmbeddedMarkup

/-! ## Documents -/

/-- A document that was opened. -/
structure OpenedDocument where
  uri : Url
  languageId : String
  version : Int
  text : Text
  deriving DecidableEq, Repr, Inhabited

/-- A record with a single field for a document. -/
def Json.documentRecord? (j : Json) : Option Json :=
  (j.record? ["textDocument"]).bind fun fields => fields.lookup "textDocument"

/-- The address in a record that names a document. -/
def Url.ofDocument? (j : Json) : Option Url := do
  Json.required? (← j.record? ["uri"]) "uri" Url.ofJson?

/-- The document in the notification that it was opened. -/
def OpenedDocument.ofParams? (j : Json) : Option OpenedDocument := do
  let fields ← (← j.documentRecord?).record? ["uri", "languageId", "version", "text"]
  return {
    uri := ← Json.required? fields "uri" Url.ofJson?
    languageId := ← Json.required? fields "languageId" Json.str?
    version := ← Json.required? fields "version" Json.int32?
    text := ← Json.required? fields "text" Json.text? }

/-- The address in the notification that a document was closed. -/
def Url.ofCloseParams? (j : Json) : Option Url :=
  j.documentRecord?.bind Url.ofDocument?

/-- Changes of a document. -/
structure ChangedDocument where
  uri : Url
  /-- The version that the changes make. -/
  version : Int
  changes : List Change
  deriving DecidableEq, Repr, Inhabited

/-- The changes in the notification that a document has changed. -/
def ChangedDocument.ofParams? (j : Json) : Option ChangedDocument := do
  let fields ← j.record? ["textDocument", "contentChanges"]
  let document ← (← fields.lookup "textDocument").record? ["uri", "version"]
  return {
    uri := ← Json.required? document "uri" Url.ofJson?
    version := ← Json.required? document "version" Json.int32?
    changes := ← Json.required? fields "contentChanges" (Json.list? Change.ofJson?) }

/-! ## Questions -/

/-- A question about a position in a host document. -/
structure Question where
  uri : Url
  position : Position
  query : Query
  deriving DecidableEq, Repr, Inhabited

namespace Question

/-- A name under which progress is reported. -/
def token : Shape := .oneOf [.int32, .string]

/-- Whether the names in `fields` under which progress is reported are well formed. -/
def hasTokens (names : List String) (fields : List (String × Json)) : Bool :=
  names.all fun name => (Json.optional? fields name token.reduce?).isSome

/-- The question about the place in `fields`. -/
def ofFields? (fields : List (String × Json)) (query : Query) : Option Question := do
  return {
    uri := ← Json.required? fields "textDocument" Url.ofDocument?
    position := ← Json.required? fields "position" Position.ofJson?
    query }

/-- The fields of parameters that are no list of values. -/
def fields? : Json → Option (List (String × Json))
  | .obj fields => some fields
  | _ => none

/-- A request about a place, with the names under which its progress may be reported. -/
def ofPlace? (tokens : List String) (query : Query) (j : Json) : Option Question := do
  let fields ← fields? j
  if hasTokens tokens fields then ofFields? fields query else none

/-- A request for completions. -/
def ofCompletion? (j : Json) : Option Question := do
  let fields ← fields? j
  let context ← Json.optional? fields "context" CompletionContext.ofJson?
  ofPlace? ["workDoneToken", "partialResultToken"] (.completion context) j

/-- A request for an insertion. -/
def ofAutoInsert? (j : Json) : Option Question := do
  let fields ← j.record? ["kind", "textDocument", "position"]
  ofFields? fields (.autoInsert (← Json.required? fields "kind" InsertKind.ofJson?))

/-- The question in the request for a method, if the method asks one. -/
def ofMethod? (method : String) : Option (Json → Option Question) :=
  match method with
  | "textDocument/hover" => some (ofPlace? ["workDoneToken"] .hover)
  | "textDocument/completion" => some ofCompletion?
  | "textDocument/definition" => some (ofPlace? ["workDoneToken", "partialResultToken"] .definition)
  | "textDocument/linkedEditingRange" => some (ofPlace? ["workDoneToken"] .linkedRanges)
  | "uibeam/autoInsert" => some ofAutoInsert?
  | _ => none

end Question

/-- The address in a request for the content of a virtual document. -/
def Url.ofContentParams? (j : Json) : Option Url := do
  Json.required? (← j.record? ["uri"]) "uri" Url.ofJson?

/-! ## Meeting -/

/-- The part of the parameters for meeting an editor that matters: where it works. -/
structure Workplace where
  folders : List Url
  /-- The folder that it names as its root. -/
  root : Option Url
  deriving DecidableEq, Repr, Inhabited

/-- A folder. -/
def Shape.folder : Shape :=
  .record [needs "uri" .url, needs "name" .string]

/-- The parameters for meeting an editor. -/
def Shape.initializeParams : Shape :=
  .record [
    may "processId" .nat32,
    may "rootPath" .string,
    may "rootUri" .url,
    may "initializationOptions" .any,
    needs "capabilities" clientCapabilities,
    may "trace" (.word ["off", "messages", "verbose"]),
    may "workspaceFolders" (.list folder),
    may "clientInfo" programInfo,
    may "locale" .string]

/-- Where an editor works, if all parameters are well formed. -/
def Workplace.ofParams? (j : Json) : Option Workplace := do
  let params ← Shape.initializeParams.reduce? j
  let folders := ((params.get? "workspaceFolders").bind Json.arr?).getD []
  return {
    folders := folders.filterMap fun f => (f.get? "uri").bind Url.ofJson?
    root := (params.get? "rootUri").bind Url.ofJson? }

end EmbeddedMarkup
