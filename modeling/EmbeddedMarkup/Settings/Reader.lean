/-
Settings from TOML text. Every setting may be left out and unknown ones are ignored, but a setting
of the wrong type spoils the whole file.
-/
import EmbeddedMarkup.Settings.Basic
import EmbeddedMarkup.Toml.Reader

namespace EmbeddedMarkup

/-! ## Typed values -/

namespace Toml

/-- The string that a value is. -/
def str? : Toml → Option String
  | string s => some s
  | _ => none

/-- The truth value that a value is. -/
def bool? : Toml → Option Bool
  | boolean b => some b
  | _ => none

/-- The natural number that a value is. -/
def nat? : Toml → Option Nat
  | integer i => if 0 ≤ i then some i.toNat else none
  | _ => none

/-- The list of strings that a value is. -/
def strings? : Toml → Option (List String)
  | array items => items.mapM str?
  | tables items => items.mapM str?
  | _ => none

/-- The entries of a record with the given names: a table, or an array that gives the first few of
the values in order. A time counts as a record with nothing in it. -/
def record? (names : List String) : Toml → Option Entries
  | table _ entries => some entries
  | array items => some (names.zip items)
  | tables items => some (names.zip items)
  | time => some []
  | _ => none

/-- A setting, which is the default where it is left out. -/
def setting? {α : Type} (entries : Entries) (name : String) (read : Toml → Option α) (default : α) :
    Option α :=
  match entries.lookup name with
  | none => some default
  | some value => read value

end Toml

/-! ## Records -/

/-- How to run the markup server. -/
def MarkupSettings.ofToml? (value : Toml) : Option MarkupSettings := do
  let entries ← value.record? ["command", "args"]
  let default : MarkupSettings := {}
  return {
    command := ← Toml.setting? entries "command" Toml.str? default.command
    args := ← Toml.setting? entries "args" Toml.strings? default.args }

/-- What is inserted automatically. -/
def AutoInsertSettings.ofToml? (value : Toml) : Option AutoInsertSettings := do
  let entries ← value.record? ["auto_quote", "auto_close", "debounce_ms"]
  let default : AutoInsertSettings := {}
  return {
    autoQuote := ← Toml.setting? entries "auto_quote" Toml.bool? default.autoQuote
    autoClose := ← Toml.setting? entries "auto_close" Toml.bool? default.autoClose
    debounce := ← Toml.setting? entries "debounce_ms" Toml.nat? default.debounce }

/-- The settings that a text gives. -/
def Settings.parse? (t : Text) : Option Settings := do
  let entries ← Toml.parse? t
  return {
    markup := ← Toml.setting? entries "markup" MarkupSettings.ofToml? {}
    autoInsert := ← Toml.setting? entries "auto_insert" AutoInsertSettings.ofToml? {} }

end EmbeddedMarkup
