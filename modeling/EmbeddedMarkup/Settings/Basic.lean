/-
Settings: how to run the markup server, and what is inserted automatically.
-/

namespace EmbeddedMarkup

/-- How to run the markup server. -/
structure MarkupSettings where
  command : String := "vscode-html-language-server"
  args : List String := ["--stdio"]
  deriving DecidableEq, Repr, Inhabited

/-- What is inserted automatically, and when. -/
structure AutoInsertSettings where
  /-- Quotes behind an equals sign. -/
  autoQuote : Bool := true
  /-- A closing tag behind an opening one. -/
  autoClose : Bool := true
  /-- How long to wait after a change, in milliseconds. -/
  debounce : Nat := 100
  deriving DecidableEq, Repr, Inhabited

/-- Whether anything is inserted at all. -/
def AutoInsertSettings.anyEnabled (s : AutoInsertSettings) : Bool :=
  s.autoQuote || s.autoClose

/-- All settings. -/
structure Settings where
  markup : MarkupSettings := {}
  autoInsert : AutoInsertSettings := {}
  deriving DecidableEq, Repr, Inhabited

end EmbeddedMarkup
