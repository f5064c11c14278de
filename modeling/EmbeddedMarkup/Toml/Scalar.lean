/-
The simple values of TOML: strings in their four forms, numbers and times. Each reader gives the
value and what follows it.
-/
import EmbeddedMarkup.Json.Reader
import EmbeddedMarkup.Toml.Basic

namespace EmbeddedMarkup.Toml

/-! ## Characters -/

/-- Whether `c` is a space or a tab. -/
def isSpace (c : Char) : Bool :=
  c = ' ' || c = '\t'

/-- Whether `c` may stand in comments and literal strings: no control character but the tab. -/
def isPlain (c : Char) : Bool :=
  c = '\t' || (0x20 ≤ c.toNat && c.toNat ≠ 0x7F)

/-- What follows spaces and tabs. -/
def skipSpaces (t : Text) : Text :=
  t.dropWhile isSpace

/-- What follows a line end. -/
def newline? : Text → Option Text
  | '\n' :: t => some t
  | '\r' :: '\n' :: t => some t
  | _ => none

/-! ## Strings -/

/-- The character that a letter behind a backslash stands for. -/
def escaped? (c : Char) : Option Char :=
  if c = '/' then none else Json.escaped? c

/-- The character with this code point. -/
def scalar? (n : Nat) : Option Char :=
  if n.isValidChar then some (Char.ofNat n) else none

/-- The rest of a string in quotes, on one line. -/
def basicRest : Text → Option (Text × Text)
  | [] => none
  | '"' :: t => some ([], t)
  | '\\' :: 'u' :: a :: b :: c :: d :: t => do
    let x ← scalar? (← Json.hex4? a b c d)
    (basicRest t).map fun r => (x :: r.1, r.2)
  | '\\' :: 'U' :: a :: b :: c :: d :: e :: f :: g :: h :: t => do
    let x ← scalar? ((← Json.hex4? a b c d) * 0x10000 + (← Json.hex4? e f g h))
    (basicRest t).map fun r => (x :: r.1, r.2)
  | '\\' :: c :: t => do
    let x ← escaped? c
    (basicRest t).map fun r => (x :: r.1, r.2)
  | c :: t => if isPlain c then (basicRest t).map fun r => (c :: r.1, r.2) else none

/-- The rest of a string in apostrophes, on one line. -/
def literalRest : Text → Option (Text × Text)
  | [] => none
  | '\'' :: t => some ([], t)
  | c :: t => if isPlain c then (literalRest t).map fun r => (c :: r.1, r.2) else none

/-- Whether nothing but spaces stands before the next line end, of which there is one. -/
def isLineRest (t : Text) : Bool :=
  (newline? (skipSpaces t)).isSome

/-- The rest of a string in three quotes. Behind a backslash at the end of a line, `trimming` skips
everything up to the next character that is no space and no line end. -/
def multilineBasicRest (trimming : Bool) : Text → Option (Text × Text)
  | [] => none
  | '"' :: '"' :: '"' :: '"' :: '"' :: t => some (['"', '"'], t)
  | '"' :: '"' :: '"' :: '"' :: t => some (['"'], t)
  | '"' :: '"' :: '"' :: t => some ([], t)
  | '\\' :: 'u' :: a :: b :: c :: d :: t => do
    let x ← scalar? (← Json.hex4? a b c d)
    (multilineBasicRest false t).map fun r => (x :: r.1, r.2)
  | '\\' :: 'U' :: a :: b :: c :: d :: e :: f :: g :: h :: t => do
    let x ← scalar? ((← Json.hex4? a b c d) * 0x10000 + (← Json.hex4? e f g h))
    (multilineBasicRest false t).map fun r => (x :: r.1, r.2)
  | '\\' :: c :: t =>
    if isLineRest (c :: t) then
      multilineBasicRest true (c :: t)
    else do
      let x ← escaped? c
      (multilineBasicRest false t).map fun r => (x :: r.1, r.2)
  | '\r' :: '\n' :: t =>
    if trimming then multilineBasicRest true t
    else (multilineBasicRest false t).map fun r => ('\n' :: r.1, r.2)
  | c :: t =>
    if trimming && (isSpace c || c = '\n') then multilineBasicRest true t
    else if isPlain c || c = '\n' then (multilineBasicRest false t).map fun r => (c :: r.1, r.2)
    else none

/-- The rest of a string in three apostrophes. -/
def multilineLiteralRest : Text → Option (Text × Text)
  | [] => none
  | '\'' :: '\'' :: '\'' :: '\'' :: '\'' :: t => some (['\'', '\''], t)
  | '\'' :: '\'' :: '\'' :: '\'' :: t => some (['\''], t)
  | '\'' :: '\'' :: '\'' :: t => some ([], t)
  | '\r' :: '\n' :: t => (multilineLiteralRest t).map fun r => ('\n' :: r.1, r.2)
  | c :: t =>
    if isPlain c || c = '\n' then (multilineLiteralRest t).map fun r => (c :: r.1, r.2) else none

/-- What follows a line end, if there is one. -/
def dropNewline (t : Text) : Text :=
  (newline? t).getD t

/-- A string in any form. -/
def string? : Text → Option (String × Text)
  | '"' :: '"' :: '"' :: t =>
    (multilineBasicRest false (dropNewline t)).map fun r => (String.ofList r.1, r.2)
  | '"' :: t => (basicRest t).map fun r => (String.ofList r.1, r.2)
  | '\'' :: '\'' :: '\'' :: t =>
    (multilineLiteralRest (dropNewline t)).map fun r => (String.ofList r.1, r.2)
  | '\'' :: t => (literalRest t).map fun r => (String.ofList r.1, r.2)
  | _ => none

/-! ## Numbers -/

/-- More digits, with single underscores between them. -/
def moreDigits (isDigit : Char → Bool) : Text → Text × Text
  | [] => ([], [])
  | '_' :: c :: t =>
    if isDigit c then let r := moreDigits isDigit t; (c :: r.1, r.2) else ([], '_' :: c :: t)
  | c :: t => if isDigit c then let r := moreDigits isDigit t; (c :: r.1, r.2) else ([], c :: t)

/-- One or more digits, with single underscores between them. -/
def digitRun? (isDigit : Char → Bool) : Text → Option (Text × Text)
  | [] => none
  | c :: t => if isDigit c then let r := moreDigits isDigit t; some (c :: r.1, r.2) else none

/-- The value of digits in a base. -/
def digitsIn (base : Nat) (ds : Text) : Nat :=
  ds.foldl (fun n c => n * base + (Json.hexValue? c).getD 0) 0

/-- Whether `c` is a digit in a base up to sixteen. -/
def isDigitIn (base : Nat) (c : Char) : Bool :=
  (Json.hexValue? c).any (· < base)

/-- A sign, if there is one: whether it is minus. -/
def sign : Text → Bool × Text
  | '+' :: t => (false, t)
  | '-' :: t => (true, t)
  | t => (false, t)

/-- The digits of a decimal integer: a zero stands alone. -/
def decimalDigits? : Text → Option (Text × Text)
  | '0' :: t => some (['0'], t)
  | t => digitRun? Char.isDigit t

/-- A signed 64-bit integer. -/
def int64? (i : Int) : Option Int :=
  if -0x8000000000000000 ≤ i ∧ i < 0x8000000000000000 then some i else none

/-- An integer in one of the bases that have a mark in front. -/
def baseInteger? (base : Nat) (t : Text) : Option (Toml × Text) := do
  let (ds, rest) ← digitRun? (isDigitIn base) t
  return (integer (← int64? (digitsIn base ds)), rest)

/-- An integer. -/
def integer? : Text → Option (Toml × Text)
  | '0' :: 'x' :: t => baseInteger? 16 t
  | '0' :: 'o' :: t => baseInteger? 8 t
  | '0' :: 'b' :: t => baseInteger? 2 t
  | t => do
    let (negative, t) := sign t
    let (ds, rest) ← decimalDigits? t
    let n : Int := digitsIn 10 ds
    return (integer (← int64? (if negative then -n else n)), rest)

/-- The exponent of a floating-point number, behind its mark. -/
def exponent? (t : Text) : Option (Int × Text) := do
  let (negative, t) := sign t
  let (ds, rest) ← digitRun? Char.isDigit t
  let n : Int := digitsIn 10 ds
  return (if negative then -n else n, rest)

/-- Whether a number with these digits is too large to be finite. A negative one is let through. -/
def isInfinite (negative : Bool) (digits : Text) (exponent : Int) : Bool :=
  !negative && (Double.ofDecimal? false (digitsIn 10 digits) exponent).isNone

/-- A floating-point number: one with a fraction, an exponent or both, or a word. -/
def float? (t : Text) : Option (Toml × Text) :=
  let (negative, t) := sign t
  match t with
  | 'i' :: 'n' :: 'f' :: rest => some (float, rest)
  | 'n' :: 'a' :: 'n' :: rest => some (float, rest)
  | _ => do
    let (ds, t) ← decimalDigits? t
    let (fraction, t) ← match t with
      | '.' :: t => (digitRun? Char.isDigit t).map fun r => (some r.1, r.2)
      | t => some (none, t)
    let (exponent, t) ← match t with
      | 'e' :: t => (exponent? t).map fun r => (some r.1, r.2)
      | 'E' :: t => (exponent? t).map fun r => (some r.1, r.2)
      | t => some (none, t)
    let behind := fraction.getD []
    if fraction.isNone && exponent.isNone then none
    if isInfinite negative (ds ++ behind) (exponent.getD 0 - behind.length) then none
    return (float, t)

/-! ## Times -/

/-- The number of exactly `n` digits. -/
def fixedDigits? (n : Nat) (t : Text) : Option (Nat × Text) :=
  let ds := t.take n
  if ds.length = n && ds.all Char.isDigit then some (digitsIn 10 ds, t.drop n) else none

/-- What follows `c`. -/
def char? (c : Char) : Text → Option Text
  | d :: t => if d = c then some t else none
  | [] => none

/-- The number of days of a month. -/
def monthDays (year month : Nat) : Nat :=
  if month = 2 then
    if year % 4 = 0 ∧ (year % 100 ≠ 0 ∨ year % 400 = 0) then 29 else 28
  else if month = 4 ∨ month = 6 ∨ month = 9 ∨ month = 11 then 30 else 31

/-- What follows a date. -/
def date? (t : Text) : Option Text := do
  let (year, t) ← fixedDigits? 4 t
  let (month, t) ← fixedDigits? 2 (← char? '-' t)
  let (day, t) ← fixedDigits? 2 (← char? '-' t)
  if 1 ≤ month ∧ month ≤ 12 ∧ 1 ≤ day ∧ day ≤ monthDays year month then return t else none

/-- What follows a time of day. -/
def clock? (t : Text) : Option Text := do
  let (hour, t) ← fixedDigits? 2 t
  let (minute, t) ← fixedDigits? 2 (← char? ':' t)
  let (second, t) ← fixedDigits? 2 (← char? ':' t)
  if 23 < hour ∨ 59 < minute ∨ 60 < second then none
  match t with
  | '.' :: rest =>
    if rest.takeWhile Char.isDigit = [] then none else return rest.dropWhile Char.isDigit
  | _ => return t

/-- What follows the offset of a time from the common one. -/
def offset? : Text → Option Text
  | 'Z' :: t => some t
  | 'z' :: t => some t
  | c :: t => do
    if c ≠ '+' ∧ c ≠ '-' then none
    let (hour, t) ← fixedDigits? 2 t
    let (minute, t) ← fixedDigits? 2 (← char? ':' t)
    if hour ≤ 23 ∧ minute ≤ 59 then return t else none
  | [] => none

/-- A date, a time of day, or both. -/
def time? (t : Text) : Option (Toml × Text) :=
  match date? t with
  | none => (clock? t).map (time, ·)
  | some t =>
    match t with
    | c :: rest =>
      if c = 'T' || c = 't' || c = ' ' then
        match clock? rest with
        | some rest => some (time, (offset? rest).getD rest)
        | none => some (time, t)
      else
        some (time, t)
    | [] => some (time, [])

/-- A number, a time or a truth value. -/
def bare? (t : Text) : Option (Toml × Text) :=
  match t with
  | 't' :: 'r' :: 'u' :: 'e' :: rest => some (boolean true, rest)
  | 'f' :: 'a' :: 'l' :: 's' :: 'e' :: rest => some (boolean false, rest)
  | _ => (time? t).or ((float? t).or (integer? t))

end EmbeddedMarkup.Toml
