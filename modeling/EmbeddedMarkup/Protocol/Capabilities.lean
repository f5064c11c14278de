/-
Capabilities: what an editor and a server tell each other when they meet. Only their shape matters
here, since a message that does not have it is refused as a whole.
-/
import EmbeddedMarkup.Protocol.Hover

namespace EmbeddedMarkup.Shape

/-! ## Common parts -/

/-- A record of flags, each of which may be left out. -/
def flags (names : List String) : Shape :=
  .record (names.map fun name => may name .flag)

/-- A list of strings. -/
def strings : Shape := .list .string

/-- A list of numbered kinds. -/
def kinds : Shape := .list .int32

/-- A record that lists the kinds it is about. -/
def kindSet : Shape := .record [needs "valueSet" kinds]

/-- A record that lists the properties it is about. -/
def propertySet : Shape := .record [needs "properties" strings]

/-! ## What a server can do -/

/-- The option that every feature has. -/
def workDone : String × Bool × Shape := may "workDoneProgress" .flag

/-- A feature that is there or not, with no options of its own. -/
def feature : Shape := .oneOf [.flag, .record [workDone]]

/-- The documents that something is about. -/
def documentSelector : Shape :=
  .list (.record [may "language" .string, may "scheme" .string, may "pattern" .string])

/-- A feature that may be limited to some documents. -/
def selectiveFeature : Shape :=
  .oneOf [.flag, .record [may "documentSelector" documentSelector, may "id" .string]]

/-- How the server wants to hear of changes. -/
def documentSync : Shape :=
  .oneOf [.int32, .record [may "openClose" .flag, may "change" .int32, may "willSave" .flag,
    may "willSaveWaitUntil" .flag,
    may "save" (.oneOf [.flag, .record [may "includeText" .flag]])]]

/-- Which notebooks the server wants to hear of. -/
def notebookSync : Shape :=
  let notebook : Shape := .oneOf [.string, .record [may "notebookType" .string,
    may "scheme" .string, may "pattern" .string]]
  let cells : Shape := .list (.record [needs "language" .string])
  .record [needs "notebookSelector" (.list (.oneOf [
    .record [needs "notebook" notebook, may "cells" cells],
    .record [may "notebook" notebook, needs "cells" cells]])), may "save" .flag, may "id" .string]

/-- What the server does about the workspace. -/
def workspaceFeatures : Shape :=
  let files : Shape := .record [needs "filters" (.list (.record [may "scheme" .string,
    needs "pattern" (.record [needs "glob" .string, may "matches" (.word ["file", "folder"]),
      may "options" (flags ["ignoreCase"])])]))]
  .record [
    may "workspaceFolders" (.record [may "supported" .flag,
      may "changeNotifications" (.oneOf [.flag, .string])]),
    may "fileOperations" (.record (["didCreate", "willCreate", "didRename", "willRename",
      "didDelete", "willDelete"].map fun name => may name files))]

/-- How the server classifies pieces of text. -/
def semanticTokens : Shape :=
  .record [workDone,
    needs "legend" (.record [needs "tokenTypes" strings, needs "tokenModifiers" strings]),
    may "range" .flag, may "full" (.oneOf [.flag, flags ["delta"]])]

/-- All that a server can do. -/
def serverCapabilities : Shape :=
  .record [
    may "positionEncoding" .string,
    may "textDocumentSync" documentSync,
    may "notebookDocumentSync" notebookSync,
    may "selectionRangeProvider" feature,
    may "hoverProvider" feature,
    may "completionProvider" (.record [may "resolveProvider" .flag,
      may "triggerCharacters" strings, may "allCommitCharacters" strings, workDone,
      may "completionItem" (flags ["labelDetailsSupport"])]),
    may "signatureHelpProvider" (.record [may "triggerCharacters" strings,
      may "retriggerCharacters" strings, workDone]),
    may "definitionProvider" feature,
    may "typeDefinitionProvider" selectiveFeature,
    may "implementationProvider" selectiveFeature,
    may "referencesProvider" feature,
    may "documentHighlightProvider" feature,
    may "documentSymbolProvider" (.oneOf [.flag, .record [may "label" .string, workDone]]),
    may "workspaceSymbolProvider" (.oneOf [.flag, .record [workDone, may "resolveProvider" .flag]]),
    may "codeActionProvider" (.oneOf [.flag, .record [may "codeActionKinds" strings, workDone,
      may "resolveProvider" .flag]]),
    may "codeLensProvider" (flags ["resolveProvider"]),
    may "documentFormattingProvider" feature,
    may "documentRangeFormattingProvider" feature,
    may "documentOnTypeFormattingProvider" (.record [needs "firstTriggerCharacter" .string,
      may "moreTriggerCharacter" strings]),
    may "renameProvider" (.oneOf [.flag, .record [may "prepareProvider" .flag, workDone]]),
    may "documentLinkProvider" (.record [may "resolveProvider" .flag, workDone]),
    may "colorProvider" (.oneOf [.flag, .record []]),
    may "foldingRangeProvider" (.oneOf [.flag, .record []]),
    may "declarationProvider" feature,
    may "executeCommandProvider" (.record [needs "commands" strings, workDone]),
    may "workspace" workspaceFeatures,
    may "callHierarchyProvider" feature,
    may "semanticTokensProvider" semanticTokens,
    may "monikerProvider" feature,
    may "linkedEditingRangeProvider" feature,
    may "inlineValueProvider" feature,
    may "inlayHintProvider" (.oneOf [.flag, .record [workDone, may "resolveProvider" .flag]]),
    may "diagnosticProvider" (.record [may "identifier" .string,
      needs "interFileDependencies" .flag, needs "workspaceDiagnostics" .flag, workDone]),
    may "experimental" .any]

/-- What a program tells about itself. -/
def programInfo : Shape :=
  .record [needs "name" .string, may "version" .string]

/-- What a server answers when it is met. -/
def initializeResult : Shape :=
  .record [needs "capabilities" serverCapabilities, may "serverInfo" programInfo]

/-! ## What an editor can do -/

/-- What an editor does about the workspace. -/
def workspaceClient : Shape :=
  .record [may "applyEdit" .flag,
    may "workspaceEdit" (.record [may "documentChanges" .flag, may "resourceOperations" strings,
      may "failureHandling" .string, may "normalizesLineEndings" .flag,
      may "changeAnnotationSupport" (flags ["groupsOnLabel"])]),
    may "didChangeConfiguration" (flags ["dynamicRegistration"]),
    may "didChangeWatchedFiles" (flags ["dynamicRegistration", "relativePatternSupport"]),
    may "symbol" (.record [may "dynamicRegistration" .flag,
      may "symbolKind" (.record [may "valueSet" kinds]), may "tagSupport" kindSet,
      may "resolveSupport" propertySet]),
    may "executeCommand" (flags ["dynamicRegistration"]),
    may "workspaceFolders" .flag, may "configuration" .flag,
    may "semanticTokens" (flags ["refreshSupport"]), may "codeLens" (flags ["refreshSupport"]),
    may "fileOperations" (flags ["dynamicRegistration", "didCreate", "willCreate", "didRename",
      "willRename", "didDelete", "willDelete"]),
    may "inlineValue" (flags ["refreshSupport"]), may "inlayHint" (flags ["refreshSupport"]),
    may "diagnostic" (flags ["refreshSupport"])]

/-- How an editor shows completions. -/
def completionClient : Shape :=
  .record [may "dynamicRegistration" .flag,
    may "completionItem" (.record [may "snippetSupport" .flag, may "commitCharactersSupport" .flag,
      may "documentationFormat" (.list (.word ["plaintext", "markdown"])),
      may "deprecatedSupport" .flag, may "preselectSupport" .flag, may "tagSupport" kindSet,
      may "insertReplaceSupport" .flag, may "resolveSupport" propertySet,
      may "insertTextModeSupport" kindSet, may "labelDetailsSupport" .flag]),
    may "completionItemKind" (.record [may "valueSet" kinds]), may "contextSupport" .flag,
    may "insertTextMode" .int32, may "completionList" (.record [may "itemDefaults" strings])]

/-- What an editor does with code actions. -/
def codeActionClient : Shape :=
  .record [may "dynamicRegistration" .flag,
    may "codeActionLiteralSupport" (.record [needs "codeActionKind"
      (.record [needs "valueSet" strings])]),
    may "isPreferredSupport" .flag, may "disabledSupport" .flag, may "dataSupport" .flag,
    may "resolveSupport" propertySet, may "honorsChangeAnnotations" .flag]

/-- How an editor shows classified pieces of text. -/
def semanticTokensClient : Shape :=
  .record [may "dynamicRegistration" .flag,
    needs "requests" (.record [may "range" .flag, may "full" (.oneOf [.flag, flags ["delta"]])]),
    needs "tokenTypes" strings, needs "tokenModifiers" strings,
    needs "formats" (.list (.word ["relative"])), may "overlappingTokenSupport" .flag,
    may "multilineTokenSupport" .flag, may "serverCancelSupport" .flag,
    may "augmentsSyntaxTokens" .flag]

/-- What an editor does about documents. -/
def documentClient : Shape :=
  let dynamic := flags ["dynamicRegistration"]
  let links := flags ["dynamicRegistration", "linkSupport"]
  let formats : Shape := .list (.word ["plaintext", "markdown"])
  .record [
    may "synchronization" (flags ["dynamicRegistration", "willSave", "willSaveWaitUntil",
      "didSave"]),
    may "completion" completionClient,
    may "hover" (.record [may "dynamicRegistration" .flag, may "contentFormat" formats]),
    may "signatureHelp" (.record [may "dynamicRegistration" .flag,
      may "signatureInformation" (.record [may "documentationFormat" formats,
        may "parameterInformation" (flags ["labelOffsetSupport"]),
        may "activeParameterSupport" .flag]), may "contextSupport" .flag]),
    may "references" dynamic, may "documentHighlight" dynamic,
    may "documentSymbol" (.record [may "dynamicRegistration" .flag,
      may "symbolKind" (.record [may "valueSet" kinds]),
      may "hierarchicalDocumentSymbolSupport" .flag, may "tagSupport" kindSet]),
    may "formatting" dynamic, may "rangeFormatting" dynamic, may "onTypeFormatting" dynamic,
    may "declaration" links, may "definition" links, may "typeDefinition" links,
    may "implementation" links, may "codeAction" codeActionClient, may "codeLens" dynamic,
    may "documentLink" (flags ["dynamicRegistration", "tooltipSupport"]),
    may "colorProvider" dynamic,
    may "rename" (.record [may "dynamicRegistration" .flag, may "prepareSupport" .flag,
      may "prepareSupportDefaultBehavior" .int32, may "honorsChangeAnnotations" .flag]),
    may "publishDiagnostics" (.record [may "relatedInformation" .flag,
      may "tagSupport" (.oneOf [.flag, kindSet]), may "versionSupport" .flag,
      may "codeDescriptionSupport" .flag, may "dataSupport" .flag]),
    may "foldingRange" (.record [may "dynamicRegistration" .flag, may "rangeLimit" .nat32,
      may "lineFoldingOnly" .flag,
      may "foldingRangeKind" (.record [may "valueSet" strings]),
      may "foldingRange" (flags ["collapsedText"])]),
    may "selectionRange" dynamic, may "linkedEditingRange" dynamic, may "callHierarchy" dynamic,
    may "semanticTokens" semanticTokensClient, may "moniker" dynamic, may "typeHierarchy" dynamic,
    may "inlineValue" dynamic,
    may "inlayHint" (.record [may "dynamicRegistration" .flag, may "resolveSupport" propertySet]),
    may "diagnostic" (flags ["dynamicRegistration", "relatedDocumentSupport"])]

/-- All that an editor can do. -/
def clientCapabilities : Shape :=
  .record [
    may "workspace" workspaceClient,
    may "textDocument" documentClient,
    may "notebookDocument" (.record [needs "synchronization"
      (flags ["dynamicRegistration", "executionSummarySupport"])]),
    may "window" (.record [may "workDoneProgress" .flag,
      may "showMessage" (.record [may "messageActionItem" (flags ["additionalPropertiesSupport"])]),
      may "showDocument" (.record [needs "support" .flag])]),
    may "general" (.record [
      may "regularExpressions" (.record [needs "engine" .string, may "version" .string]),
      may "markdown" (.record [needs "parser" .string, may "version" .string,
        may "allowedTags" strings]),
      may "staleRequestSupport" (.record [needs "cancel" .flag,
        needs "retryOnContentModified" strings]),
      may "positionEncodings" strings]),
    may "experimental" .any]

end EmbeddedMarkup.Shape
