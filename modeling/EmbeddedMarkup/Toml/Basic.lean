/-
TOML documents as trees, and the rules by which headers and dotted keys build them: a table is
defined at one place only, and what is defined is never extended from elsewhere.
-/

namespace EmbeddedMarkup

/-- How a table came about, which decides what may still be added to it. -/
inductive TableKind where
  /-- By a header of its own, or as the root. -/
  | headed
  /-- As a step in the header of another table: a header of its own may follow. -/
  | implied
  /-- As a step in a dotted key: dotted keys may add to it. -/
  | dotted
  /-- Inline: nothing may be added. -/
  | inline
  deriving DecidableEq, Repr, Inhabited

/-- A TOML value. Of floating-point numbers and times only the kind is kept. -/
inductive Toml where
  | string (s : String)
  | integer (i : Int)
  | float
  | boolean (b : Bool)
  | time
  | array (items : List Toml)
  /-- A table with its entries in order. -/
  | table (kind : TableKind) (entries : List (String × Toml))
  /-- The tables of an array that is written with one header for each. -/
  | tables (items : List Toml)
  deriving Repr, Inhabited

namespace Toml

/-- Entries of a table in order. -/
abbrev Entries := List (String × Toml)

/-- `entries` with the value of a name replaced. -/
def replace (entries : Entries) (name : String) (value : Toml) : Entries :=
  entries.map fun e => if e.1 == name then (name, value) else e

/-- Changes the entries of the table that `path` leads to, `kind` and `entries` being those of the
table where it starts. Missing tables on the way come into being; a dotted key does not enter a
table that has a header. -/
def descend (isDotted : Bool) (change : TableKind → Entries → Option Entries) :
    List String → TableKind → Entries → Option Entries
  | [], kind, entries => change kind entries
  | name :: path, _, entries =>
    match entries.lookup name with
    | none =>
      let kind := if isDotted then TableKind.dotted else TableKind.implied
      (descend isDotted change path kind []).map fun inner => entries ++ [(name, table kind inner)]
    | some (table kind inner) =>
      if kind = .inline ∨ (isDotted ∧ kind = .headed) then
        none
      else
        (descend isDotted change path kind inner).map fun inner =>
          replace entries name (table kind inner)
    | some (tables items) =>
      match items.getLast? with
      | some (table kind inner) =>
        (descend isDotted change path kind inner).map fun inner =>
          replace entries name (tables (items.dropLast ++ [table kind inner]))
      | _ => none
    | some _ => none

/-- Adds a value under a dotted key whose last name is `name`. -/
def insertKey (path : List String) (name : String) (value : Toml) (kind : TableKind)
    (entries : Entries) : Option Entries :=
  descend true (fun kind entries =>
    if (!path.isEmpty && kind != .dotted) || (entries.lookup name).isSome then
      none
    else
      some (entries ++ [(name, value)])) path kind entries

/-- Starts the table with the header `path.name`. -/
def openTable (path : List String) (name : String) (root : Entries) : Option Entries :=
  descend false (fun _ entries =>
    match entries.lookup name with
    | none => some (entries ++ [(name, table .headed [])])
    | some (table .implied inner) => some (replace entries name (table .headed inner))
    | some _ => none) path .headed root

/-- Starts the next table of the array with the header `path.name`. -/
def openArrayTable (path : List String) (name : String) (root : Entries) : Option Entries :=
  descend false (fun _ entries =>
    match entries.lookup name with
    | none => some (entries ++ [(name, tables [table .headed []])])
    | some (tables items) => some (replace entries name (tables (items ++ [table .headed []])))
    | some _ => none) path .headed root

/-- Adds a value under a dotted key to the table that the header `header` started. -/
def insertUnder (header path : List String) (name : String) (value : Toml) (root : Entries) :
    Option Entries :=
  descend false (insertKey path name value) header .headed root

end Toml

end EmbeddedMarkup
