/-
The compact text of a JSON value: no blanks, and in strings only what has to be escaped.
-/
import EmbeddedMarkup.Json.Basic

namespace EmbeddedMarkup.Json

/-- The lower-case hexadecimal digit for `n < 16`. -/
def hexDigit (n : Nat) : Char :=
  (Nat.toDigits 16 n).headD '0'

/-- The escape of one character of a string: quotes, backslashes and control characters. -/
def escapeChar (c : Char) : List Char :=
  if c = '"' then ['\\', '"']
  else if c = '\\' then ['\\', '\\']
  else if c = '\n' then ['\\', 'n']
  else if c = '\r' then ['\\', 'r']
  else if c = '\t' then ['\\', 't']
  else if c.toNat = 0x08 then ['\\', 'b']
  else if c.toNat = 0x0C then ['\\', 'f']
  else if c.toNat < 0x20 then
    ['\\', 'u', '0', '0', hexDigit (c.toNat / 16), hexDigit (c.toNat % 16)]
  else [c]

/-- A string between quotes. -/
def quote (s : List Char) : List Char :=
  '"' :: s.flatMap escapeChar ++ ['"']

/-- The text of an integer. -/
def intText (i : Int) : List Char :=
  if i < 0 then '-' :: Nat.toDigits 10 i.natAbs else Nat.toDigits 10 i.natAbs

/-- The text of a number. -/
def numberText : Number → List Char
  | .int i => intText i
  | .double x => x.toText

mutual

/-- The compact text of a value. -/
def compact : Json → List Char
  | null => ['n', 'u', 'l', 'l']
  | bool true => ['t', 'r', 'u', 'e']
  | bool false => ['f', 'a', 'l', 's', 'e']
  | num n => numberText n
  | str s => quote s.toList
  | arr [] => ['[', ']']
  | arr (j :: items) => '[' :: compact j ++ compactItems items
  | obj [] => ['\x7b', '\x7d']
  | obj ((name, j) :: fields) =>
    '\x7b' :: quote name.toList ++ ':' :: compact j ++ compactFields fields

/-- The items of a list behind the first, with the closing bracket. -/
def compactItems : List Json → List Char
  | [] => [']']
  | j :: items => ',' :: compact j ++ compactItems items

/-- The fields of an object behind the first, with the closing brace. -/
def compactFields : List (String × Json) → List Char
  | [] => ['\x7d']
  | (name, j) :: fields => ',' :: quote name.toList ++ ':' :: compact j ++ compactFields fields

end

end EmbeddedMarkup.Json
