/-
Reading TOML documents, line by line: headers start tables, and keys with values fill them.
-/
import EmbeddedMarkup.Toml.Scalar

namespace EmbeddedMarkup.Toml

/-! ## Keys -/

/-- Whether `c` may stand in a key without quotes. -/
def isBareKeyChar (c : Char) : Bool :=
  c.isAlphanum || c = '_' || c = '-'

/-- One name of a key. -/
def name? (t : Text) : Option (String × Text) :=
  match t with
  | '"' :: rest => (basicRest rest).map fun r => (String.ofList r.1, r.2)
  | '\'' :: rest => (literalRest rest).map fun r => (String.ofList r.1, r.2)
  | _ =>
    match t.takeWhile isBareKeyChar with
    | [] => none
    | cs => some (String.ofList cs, t.dropWhile isBareKeyChar)

/-- The most names in a dotted key, and the deepest nesting of arrays and inline tables. -/
def maxDepth : Nat := 79

/-- At most `count` names with points between them: those in front, the last one, and what follows
them and any spaces. -/
def names? : Nat → Text → Option (List String × String × Text)
  | 0, _ => none
  | count + 1, t => do
    let (name, t) ← name? (skipSpaces t)
    match skipSpaces t with
    | '.' :: t =>
      let (path, last, t) ← names? count t
      return (name :: path, last, t)
    | t => return ([], name, t)

/-- A dotted key: the names in front, the last one, and what follows them and any spaces. -/
def key? (t : Text) : Option (List String × String × Text) :=
  names? maxDepth t

/-! ## Values -/

/-- What follows spaces, line ends and comments inside an array. -/
def skipLines (inComment : Bool) : Text → Text
  | [] => []
  | '\n' :: t => skipLines false t
  | '\r' :: '\n' :: t => skipLines false t
  | c :: t =>
    if inComment then
      if isPlain c then skipLines true t else c :: t
    else if c = '#' then
      skipLines true t
    else if isSpace c then
      skipLines false t
    else
      c :: t

/-- The items of an array up to its closing bracket; a comma may follow the last. -/
def items? (value : Text → Option (Toml × Text)) : Nat → Text → Option (List Toml × Text)
  | 0, _ => none
  | fuel + 1, t =>
    match skipLines false t with
    | ']' :: rest => some ([], rest)
    | t => do
      let (item, t) ← value t
      match skipLines false t with
      | ',' :: t =>
        let (items, t) ← items? value fuel t
        return (item :: items, t)
      | ']' :: t => return ([item], t)
      | _ => none

/-- A key, an equals sign and a value. -/
def pair? (value : Text → Option (Toml × Text)) (t : Text) :
    Option ((List String × String × Toml) × Text) := do
  let (path, name, t) ← key? t
  let (v, t) ← value (skipSpaces (← char? '=' t))
  return ((path, name, v), t)

/-- The entries of an inline table up to its closing brace, added to `entries`. -/
def inlineEntries? (value : Text → Option (Toml × Text)) :
    Nat → Entries → Text → Option (Entries × Text)
  | 0, _, _ => none
  | fuel + 1, entries, t => do
    let ((path, name, v), t) ← pair? value t
    let entries ← insertKey path name v .headed entries
    match skipSpaces t with
    | ',' :: t => inlineEntries? value fuel entries t
    | '\x7d' :: t => return (entries, t)
    | _ => none

/-- A value in which arrays and inline tables are nested at most `depth` deep. -/
def valueAt : Nat → Text → Option (Toml × Text)
  | depth, t =>
    match t with
    | '[' :: t =>
      match depth with
      | 0 => none
      | depth + 1 => (items? (valueAt depth) (t.length + 1) t).map fun r => (array r.1, r.2)
    | '\x7b' :: t =>
      match depth with
      | 0 => none
      | depth + 1 =>
        match skipSpaces t with
        | '\x7d' :: t => some (table .inline [], t)
        | _ =>
          (inlineEntries? (valueAt depth) (t.length + 1) [] t).map fun r => (table .inline r.1, r.2)
    | '"' :: _ => (string? t).map fun r => (string r.1, r.2)
    | '\'' :: _ => (string? t).map fun r => (string r.1, r.2)
    | _ => bare? t

/-! ## Documents -/

/-- What has been read of a document. -/
structure Document where
  root : Entries
  /-- The header of the table that keys are added to. -/
  header : List String

/-- What follows spaces, a comment and the line end or the end of the text. -/
def lineEnd? (t : Text) : Option Text :=
  let t := match skipSpaces t with
    | '#' :: t => t.dropWhile isPlain
    | t => t
  match t with
  | [] => some []
  | t => newline? t

/-- A header or a key with its value, and what follows it. -/
def statement? (d : Document) (t : Text) : Option (Document × Text) :=
  match t with
  | '[' :: '[' :: t => do
    let (path, name, t) ← key? t
    let t ← (char? ']' t).bind (char? ']')
    return (⟨← openArrayTable path name d.root, path ++ [name]⟩, t)
  | '[' :: t => do
    let (path, name, t) ← key? t
    let t ← char? ']' t
    return (⟨← openTable path name d.root, path ++ [name]⟩, t)
  | _ => do
    let ((path, name, v), t) ← pair? (valueAt maxDepth) t
    return (⟨← insertUnder d.header path name v d.root, d.header⟩, t)

/-- Reads the lines of a document; `fuel` bounds their number. -/
def lines? : Nat → Document → Text → Option Document
  | 0, _, _ => none
  | fuel + 1, d, t =>
    match skipSpaces t with
    | [] => some d
    | t =>
      match lineEnd? t with
      | some rest => lines? fuel d rest
      | none => do
        let (d, t) ← statement? d t
        lines? fuel d (← lineEnd? t)

/-- The entries of the root table of a document. A byte order mark in front is skipped. -/
def parse? (t : Text) : Option Entries :=
  let t := match t with
    | '\uFEFF' :: t => t
    | t => t
  (lines? (t.length + 1) ⟨[], []⟩ t).map (·.root)

end EmbeddedMarkup.Toml
