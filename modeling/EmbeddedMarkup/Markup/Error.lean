/-
Why a markup server gives no answer, and what is noted about it in the log.
-/
import EmbeddedMarkup.Json.Writer

namespace EmbeddedMarkup

/-- Why a markup server gives no answer. -/
inductive MarkupError where
  /-- Its program could not be run. -/
  | spawn (command reason : String)
  /-- A stream could not be read or written. -/
  | io
  /-- A message is no JSON, or not of the expected kind. -/
  | malformed
  /-- A message does not say how long it is. -/
  | missingLength
  /-- The server answered with an error. -/
  | server (code : Int) (message : String)
  /-- The server is gone. -/
  | stopped
  deriving DecidableEq, Repr, Inhabited

/-- The text of an error. -/
def MarkupError.message : MarkupError → String
  | spawn command reason => "failed to spawn markup server '" ++ command ++ "': " ++ reason
  | io => "I/O error"
  | malformed => "malformed message"
  | missingLength => "protocol error: missing Content-Length"
  | server code message =>
    "markup server returned error " ++ String.ofList (Json.intText code) ++ ": " ++ message
  | stopped => "markup server stopped"

/-- How much a line of the log matters. -/
inductive LogLevel where
  | error
  | warn
  | info
  | debug
  deriving DecidableEq, Repr, Inhabited

/-- The name of a level. -/
def LogLevel.name : LogLevel → String
  | error => "ERROR"
  | warn => "WARN"
  | info => "INFO"
  | debug => "DEBUG"

/-- A line of the log. -/
structure LogLine where
  level : LogLevel
  message : String
  error : Option MarkupError := none
  deriving DecidableEq, Repr, Inhabited

end EmbeddedMarkup
