/-
Reading JSON text. Lists and objects may be nested at most 127 deep, of a name that occurs twice in
an object the last value counts, and integers beyond 64 bits are read as binary64 numbers.
-/
import EmbeddedMarkup.Json.Basic
import EmbeddedMarkup.Text.Basic

namespace EmbeddedMarkup.Json

/-- Drops blanks: spaces, tabs, line feeds and carriage returns. -/
def skipBlanks (t : Text) : Text :=
  t.dropWhile fun c => c = ' ' || c = '\t' || c = '\n' || c = '\r'

/-! ## Strings -/

/-- The value of a hexadecimal digit. -/
def hexValue? (c : Char) : Option Nat :=
  if '0' ≤ c ∧ c ≤ '9' then some (c.toNat - '0'.toNat)
  else if 'a' ≤ c ∧ c ≤ 'f' then some (c.toNat - 'a'.toNat + 10)
  else if 'A' ≤ c ∧ c ≤ 'F' then some (c.toNat - 'A'.toNat + 10)
  else none

/-- The value of four hexadecimal digits. -/
def hex4? (a b c d : Char) : Option Nat := do
  return (((← hexValue? a) * 16 + (← hexValue? b)) * 16 + (← hexValue? c)) * 16 + (← hexValue? d)

/-- The character that a letter behind a backslash stands for. -/
def escaped? (c : Char) : Option Char :=
  if c = '"' || c = '\\' || c = '/' then some c
  else if c = 'b' then some (Char.ofNat 0x08)
  else if c = 'f' then some (Char.ofNat 0x0C)
  else if c = 'n' then some '\n'
  else if c = 'r' then some '\r'
  else if c = 't' then some '\t'
  else none

/-- Whether `n` is the first half of a surrogate pair. -/
def isHighSurrogate (n : Nat) : Bool :=
  0xD800 ≤ n && n ≤ 0xDBFF

/-- Whether `n` is the second half of a surrogate pair. -/
def isLowSurrogate (n : Nat) : Bool :=
  0xDC00 ≤ n && n ≤ 0xDFFF

/-- The rest of a string behind its opening quote, and what follows its closing quote. A control
character and half a surrogate pair are refused. -/
def stringRest : Text → Option (Text × Text)
  | [] => none
  | '"' :: t => some ([], t)
  | '\\' :: 'u' :: a :: b :: c :: d :: t =>
    match hex4? a b c d with
    | none => none
    | some n =>
      if isHighSurrogate n then
        match t with
        | '\\' :: 'u' :: e :: f :: g :: h :: t =>
          match hex4? e f g h with
          | none => none
          | some m =>
            if isLowSurrogate m then
              (stringRest t).map fun r =>
                (Char.ofNat (0x10000 + (n - 0xD800) * 0x400 + (m - 0xDC00)) :: r.1, r.2)
            else
              none
        | _ => none
      else if isLowSurrogate n then
        none
      else
        (stringRest t).map fun r => (Char.ofNat n :: r.1, r.2)
  | '\\' :: c :: t =>
    match escaped? c with
    | none => none
    | some c => (stringRest t).map fun r => (c :: r.1, r.2)
  | c :: t =>
    if c.toNat < 0x20 then none else (stringRest t).map fun r => (c :: r.1, r.2)

/-! ## Numbers -/

/-- The decimal digits of a number as far as they fit into 64 bits, with the power of ten that makes
up for those left out. -/
structure Significand where
  /-- The digits kept. -/
  value : Nat
  /-- The power of ten. -/
  exponent : Int
  /-- Whether all integer digits so far were kept. -/
  whole : Bool

/-- Whether one more digit still fits. -/
def Significand.fits (s : Significand) (digit : Nat) : Bool :=
  s.value * 10 + digit < 0x10000000000000000

/-- Takes an integer digit; the digits behind the first that does not fit are only counted. -/
def Significand.integerDigit (s : Significand) (digit : Nat) : Significand :=
  if s.whole && s.fits digit then
    { s with value := s.value * 10 + digit }
  else
    { s with exponent := s.exponent + 1, whole := false }

/-- Takes the digits behind the point, up to the first that does not fit. -/
def Significand.fraction (s : Significand) : List Nat → Significand
  | [] => s
  | digit :: digits =>
    if s.fits digit then
      let s := { s with value := s.value * 10 + digit, exponent := s.exponent - 1 }
      Significand.fraction s digits
    else
      s

/-- The digits at the start of `t` as numbers, and what follows them. -/
def digits (t : Text) : List Nat × Text :=
  ((t.takeWhile Char.isDigit).map fun c => c.toNat - '0'.toNat, t.dropWhile Char.isDigit)

/-- The number that digits write. -/
def digitsValue (ds : List Nat) : Nat :=
  ds.foldl (fun n d => n * 10 + d) 0

/-- The exponent at the start of `t`, behind its mark, and what follows it. -/
def exponentPart? (t : Text) : Option (Int × Text) :=
  let (sign, t) : Int × Text :=
    match t with
    | '+' :: t => (1, t)
    | '-' :: t => (-1, t)
    | t => (1, t)
  match digits t with
  | ([], _) => none
  | (ds, t) => some (sign * digitsValue ds, t)

/-- The number that sign, integer digits, fraction and exponent make. Without the last two it is an
integer, if it fits and is not minus zero. -/
def assemble? (negative : Bool) (integer : List Nat) (fraction : Option (List Nat))
    (exponent : Option Int) : Option Number :=
  let s := integer.foldl Significand.integerDigit ⟨0, 0, true⟩
  let plain := fraction.isNone && exponent.isNone && s.whole
  if plain && !negative then
    some (.int s.value)
  else if plain && 0 < s.value && s.value ≤ 0x8000000000000000 then
    some (.int (-s.value))
  else
    let s := s.fraction (fraction.getD [])
    (Double.ofDecimal? negative s.value (s.exponent + exponent.getD 0)).map .double

/-- The number at the start of `t`, behind its sign, and what follows it. -/
def number? (negative : Bool) (t : Text) : Option (Number × Text) :=
  match digits t with
  | ([], _) => none
  | (0 :: _ :: _, _) => none
  | (integer, t) => do
    let (fraction, t) ←
      match t with
      | '.' :: t =>
        match digits t with
        | ([], _) => none
        | (ds, t) => some (some ds, t)
      | t => some (none, t)
    let (exponent, t) ←
      match t with
      | 'e' :: t => (exponentPart? t).map fun r => (some r.1, r.2)
      | 'E' :: t => (exponentPart? t).map fun r => (some r.1, r.2)
      | t => some (none, t)
    return (← assemble? negative integer fraction exponent, t)

/-! ## Values -/

/-- One or more items separated by commas, up to `close`, and what follows it. `fuel` bounds the
number of items. -/
def separated {α : Type} (item : Text → Option (α × Text)) (close : Char) :
    Nat → Text → Option (List α × Text)
  | 0, _ => none
  | fuel + 1, t =>
    match item t with
    | none => none
    | some (a, t) =>
      match skipBlanks t with
      | [] => none
      | c :: t =>
        if c = ',' then (separated item close fuel t).map fun r => (a :: r.1, r.2)
        else if c = close then some ([a], t)
        else none

/-- No or more items separated by commas, up to `close`, and what follows it. -/
def enclosed {α : Type} (item : Text → Option (α × Text)) (close : Char) (t : Text) :
    Option (List α × Text) :=
  match skipBlanks t with
  | [] => none
  | c :: rest => if c = close then some ([], rest) else separated item close (t.length + 1) t

/-- A field of an object, whose value `value` reads, and what follows it. -/
def field (value : Text → Option (Json × Text)) (t : Text) : Option ((String × Json) × Text) :=
  match skipBlanks t with
  | '"' :: t =>
    match stringRest t with
    | none => none
    | some (name, t) =>
      match skipBlanks t with
      | ':' :: t => (value t).map fun r => ((String.ofList name, r.1), r.2)
      | _ => none
  | _ => none

/-- The value at the start of `t`, in which lists and objects are nested less than `depth` deep, and
what follows it. -/
def valueAt : Nat → Text → Option (Json × Text)
  | depth, t =>
    match skipBlanks t with
    | 'n' :: 'u' :: 'l' :: 'l' :: t => some (null, t)
    | 't' :: 'r' :: 'u' :: 'e' :: t => some (bool true, t)
    | 'f' :: 'a' :: 'l' :: 's' :: 'e' :: t => some (bool false, t)
    | '"' :: t => (stringRest t).map fun r => (str (String.ofList r.1), r.2)
    | '-' :: t => (number? true t).map fun r => (num r.1, r.2)
    | '[' :: t =>
      match depth with
      | 0 => none
      | depth + 1 => (enclosed (valueAt depth) ']' t).map fun r => (arr r.1, r.2)
    | '\x7b' :: t =>
      match depth with
      | 0 => none
      | depth + 1 =>
        (enclosed (field (valueAt depth)) '\x7d' t).map fun r =>
          (obj (r.1.foldl (fun fields f => setField fields f.1 f.2) []), r.2)
    | t => (number? false t).map fun r => (num r.1, r.2)

/-- The deepest nesting of lists and objects that is read. -/
def maxDepth : Nat := 127

/-- The value that `t` is the text of. -/
def parse? (t : Text) : Option Json :=
  match valueAt maxDepth t with
  | some (j, rest) => if (skipBlanks rest).isEmpty then some j else none
  | none => none

end EmbeddedMarkup.Json
