/-
Requests that an editor may make and that are understood but not supported: they are refused, and
those with parameters of the wrong shape are refused for that reason first.
-/
import EmbeddedMarkup.Protocol.Params

namespace EmbeddedMarkup.Shape

/-! ## Parts of parameters -/

/-- A position. -/
def position : Shape := .record [needs "line" .nat32, needs "character" .nat32]

/-- A range. -/
def range : Shape := .record [needs "start" position, needs "end" position]

/-- A replacement of a range by a text. -/
def textEdit : Shape := .record [needs "range" range, needs "newText" .string]

/-- A range in a document. -/
def location : Shape := .record [needs "uri" .url, needs "range" range]

/-- The document that a request is about. -/
def document : String × Bool × Shape := needs "textDocument" (.record [needs "uri" .url])

/-- The names under which the progress of a request may be reported. -/
def tokens : List (String × Bool × Shape) :=
  [may "workDoneToken" Question.token, may "partialResultToken" Question.token]

/-- A request about a document, with further fields. -/
def aboutDocument (fields : List (String × Bool × Shape)) : Shape :=
  .record (document :: fields ++ tokens)

/-- A request about a place in a document, with further fields. -/
def aboutPlace (fields : List (String × Bool × Shape)) : Shape :=
  aboutDocument (needs "position" position :: fields)

/-- A command. -/
def command : Shape :=
  .record [needs "title" .string, needs "command" .string, may "arguments" (.list .any)]

/-- A diagnostic. -/
def diagnostic : Shape :=
  .record [needs "range" range, may "severity" .int32, may "code" Question.token,
    may "codeDescription" (.record [needs "href" .url]), may "source" .string,
    needs "message" .string,
    may "relatedInformation" (.list (.record [needs "location" location, needs "message" .string])),
    may "tags" kinds, may "data" .any]

/-- An entry of a hierarchy. -/
def hierarchyItem (tags : Shape) : Shape :=
  .record [needs "name" .string, needs "kind" .int32, may "tags" tags, may "detail" .string,
    needs "uri" .url, needs "range" range, needs "selectionRange" range, may "data" .any]

/-- A request about an entry of a hierarchy. -/
def aboutItem (tags : Shape) : Shape :=
  .record (needs "item" (hierarchyItem tags) :: tokens)

/-- How to lay out text. -/
def layout : String × Bool × Shape :=
  needs "options" (.record [needs "tabSize" .nat32, needs "insertSpaces" .flag,
    may "trimTrailingWhitespace" .flag, may "insertFinalNewline" .flag,
    may "trimFinalNewlines" .flag])

/-- A request about files. -/
def aboutFiles (names : List String) : Shape :=
  .record [needs "files" (.list (.record (names.map fun name => needs name .string)))]

/-- A color. -/
def color : Shape :=
  .record (["red", "green", "blue", "alpha"].map fun name => needs name .number)

/-- A hint between the characters of a text. -/
def inlayHint : Shape :=
  let tooltip := may "tooltip" (.oneOf [.string, markup])
  .record [needs "position" position,
    needs "label" (.oneOf [.string, .list (.record [needs "value" .string, tooltip,
      may "location" location, may "command" command])]),
    may "kind" .int32, may "textEdits" (.list textEdit), tooltip, may "paddingLeft" .flag,
    may "paddingRight" .flag, may "data" .any]

/-- A proposal for a completion. -/
def completionItem : Shape :=
  let edit : Shape := .oneOf [textEdit,
    .record [needs "newText" .string, needs "insert" range, needs "replace" range]]
  .record ([needs "label" .string] ++ CompletionItem.leadingDetails ++
    [may "textEdit" edit, may "additionalTextEdits" (.list textEdit)] ++
    CompletionItem.trailingDetails)

/-- A proposal for a change of the code. -/
def codeAction : Shape :=
  .record [needs "title" .string, may "kind" .string, may "diagnostics" (.list diagnostic),
    may "edit" (.dictionary .any), may "command" command, may "isPreferred" .flag,
    may "disabled" (.record [needs "reason" .string]), may "data" .any]

/-- What made the editor ask for the signature of a function. -/
def signatureContext : Shape :=
  .record [needs "triggerKind" .int32, may "triggerCharacter" .string, needs "isRetrigger" .flag,
    may "activeSignatureHelp" (.dictionary .any)]

/-! ## Requests -/

/-- The requests that are not supported, with their parameters. -/
def unsupported : List (String × Shape) := [
  ("textDocument/declaration", aboutPlace []),
  ("textDocument/typeDefinition", aboutPlace []),
  ("textDocument/implementation", aboutPlace []),
  ("textDocument/references", aboutPlace [needs "context"
    (.record [needs "includeDeclaration" .flag])]),
  ("textDocument/prepareCallHierarchy", aboutPlace []),
  ("callHierarchy/incomingCalls", aboutItem kinds),
  ("callHierarchy/outgoingCalls", aboutItem kinds),
  ("textDocument/prepareTypeHierarchy", aboutPlace []),
  ("typeHierarchy/supertypes", aboutItem .int32),
  ("typeHierarchy/subtypes", aboutItem .int32),
  ("textDocument/documentHighlight", aboutPlace []),
  ("textDocument/documentLink", aboutDocument []),
  ("documentLink/resolve", .record [needs "range" range, may "target" .url,
    may "tooltip" .string, may "data" .any]),
  ("textDocument/codeLens", aboutDocument []),
  ("codeLens/resolve", .record [needs "range" range, may "command" command, may "data" .any]),
  ("textDocument/foldingRange", aboutDocument []),
  ("textDocument/selectionRange", aboutDocument [needs "positions" (.list position)]),
  ("textDocument/documentSymbol", aboutDocument []),
  ("textDocument/semanticTokens/full", aboutDocument []),
  ("textDocument/semanticTokens/full/delta", aboutDocument [needs "previousResultId" .string]),
  ("textDocument/semanticTokens/range", aboutDocument [needs "range" range]),
  ("textDocument/inlineValue", aboutDocument [needs "range" range, needs "context"
    (.record [needs "frameId" .int32, needs "stoppedLocation" range])]),
  ("textDocument/inlayHint", aboutDocument [needs "range" range]),
  ("inlayHint/resolve", inlayHint),
  ("textDocument/moniker", aboutPlace []),
  ("completionItem/resolve", completionItem),
  ("textDocument/diagnostic", aboutDocument [may "identifier" .string,
    may "previousResultId" .string]),
  ("workspace/diagnostic", .record ([may "identifier" .string, needs "previousResultIds"
    (.list (.record [needs "uri" .url, needs "value" .string]))] ++ tokens)),
  ("textDocument/signatureHelp", aboutPlace [may "context" signatureContext]),
  ("textDocument/codeAction", aboutDocument [needs "range" range, needs "context"
    (.record [needs "diagnostics" (.list diagnostic), may "only" strings,
      may "triggerKind" .int32])]),
  ("codeAction/resolve", codeAction),
  ("textDocument/documentColor", aboutDocument []),
  ("textDocument/colorPresentation", aboutDocument [needs "color" color, needs "range" range]),
  ("textDocument/formatting", aboutDocument [layout]),
  ("textDocument/rangeFormatting", aboutDocument [needs "range" range, layout]),
  ("textDocument/onTypeFormatting", aboutPlace [needs "ch" .string, layout]),
  ("textDocument/rename", aboutPlace [needs "newName" .string]),
  ("textDocument/prepareRename", .record [document, needs "position" position]),
  ("workspace/symbol", .record (needs "query" .string :: tokens)),
  ("workspaceSymbol/resolve", .record [needs "name" .string, needs "kind" .int32,
    may "tags" kinds, may "containerName" .string,
    needs "location" (.oneOf [location, .record [needs "uri" .url]]), may "data" .any]),
  ("workspace/willCreateFiles", aboutFiles ["uri"]),
  ("workspace/willRenameFiles", aboutFiles ["oldUri", "newUri"]),
  ("workspace/willDeleteFiles", aboutFiles ["uri"]),
  ("workspace/executeCommand", .record [needs "command" .string, may "arguments" (.list .any),
    may "workDoneToken" Question.token]),
  ("textDocument/willSaveWaitUntil", .record [document, needs "reason" .int32])]

end EmbeddedMarkup.Shape
