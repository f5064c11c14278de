/-
JSON values. Integers are kept apart from other numbers, since a field that wants an integer refuses
`1.0`; an object holds each name once.
-/
import EmbeddedMarkup.Json.Double

namespace EmbeddedMarkup

/-- A number as its text distinguishes it. -/
inductive Number where
  /-- An integer between `-2 ^ 63` and `2 ^ 64 - 1`. -/
  | int (i : Int)
  /-- Any other number: one with a fraction or an exponent, or a larger integer. -/
  | double (x : Double)
  deriving DecidableEq, Repr, Inhabited

/-- A JSON value. -/
inductive Json where
  | null
  | bool (b : Bool)
  | num (n : Number)
  | str (s : String)
  | arr (items : List Json)
  | obj (fields : List (String × Json))
  deriving Repr, Inhabited

namespace Json

/-- The integer `i`. -/
def int (i : Int) : Json :=
  num (.int i)

/-- The natural number `n`. -/
def nat (n : Nat) : Json :=
  int n

/-- The text `t`. -/
def text (t : List Char) : Json :=
  str (String.ofList t)

/-- `fields` with `name` set to `value`, at its place if the name is there already. -/
def setField (fields : List (String × Json)) (name : String) (value : Json) :
    List (String × Json) :=
  if fields.any fun f => f.1 == name then
    fields.map fun f => if f.1 == name then (name, value) else f
  else
    fields ++ [(name, value)]

/-! ## Looking inside -/

/-- The value of a field; none of a value that is not an object. -/
def get? (j : Json) (name : String) : Option Json :=
  match j with
  | obj fields => fields.lookup name
  | _ => none

/-- The string that `j` is. -/
def str? : Json → Option String
  | str s => some s
  | _ => none

/-- The characters of the string that `j` is. -/
def text? : Json → Option (List Char)
  | str s => some s.toList
  | _ => none

/-- The truth value that `j` is. -/
def bool? : Json → Option Bool
  | bool b => some b
  | _ => none

/-- The list that `j` is. -/
def arr? : Json → Option (List Json)
  | arr items => some items
  | _ => none

/-- The integer that `j` is, when it lies between `lo` and `hi`. -/
def intBetween? (lo hi : Int) : Json → Option Int
  | num (.int i) => if lo ≤ i ∧ i ≤ hi then some i else none
  | _ => none

/-- The signed 32-bit integer that `j` is. -/
def int32? (j : Json) : Option Int :=
  j.intBetween? (-0x80000000) 0x7FFFFFFF

/-- The signed 64-bit integer that `j` is. -/
def int64? (j : Json) : Option Int :=
  j.intBetween? (-0x8000000000000000) 0x7FFFFFFFFFFFFFFF

/-- The unsigned 32-bit integer that `j` is. -/
def nat32? (j : Json) : Option Nat :=
  (j.intBetween? 0 0xFFFFFFFF).map Int.toNat

/-- The unsigned 64-bit integer that `j` is. -/
def nat64? (j : Json) : Option Nat :=
  (j.intBetween? 0 0xFFFFFFFFFFFFFFFF).map Int.toNat

/-! ## Records

A record is written as an object, of which unknown fields are ignored, or as the list of all its
values in order. -/

/-- The fields of a record with the given names. -/
def record? (names : List String) : Json → Option (List (String × Json))
  | obj fields => some fields
  | arr items => if items.length = names.length then some (names.zip items) else none
  | _ => none

/-- A field that has to be there. -/
def required? {α : Type} (fields : List (String × Json)) (name : String) (read : Json → Option α) :
    Option α :=
  (fields.lookup name).bind read

/-- A field that may be absent or null. -/
def optional? {α : Type} (fields : List (String × Json)) (name : String) (read : Json → Option α) :
    Option (Option α) :=
  match fields.lookup name with
  | none => some none
  | some null => some none
  | some j => (read j).map some

/-- A list of values of one kind. -/
def list? {α : Type} (read : Json → Option α) (j : Json) : Option (List α) :=
  j.arr?.bind fun items => items.mapM read

/-- A value of one kind, or null. -/
def nullable? {α : Type} (read : Json → Option α) : Json → Option (Option α)
  | null => some none
  | j => (read j).map some

/-- The fields of an object in which an absent value leaves its field out. -/
def present (fields : List (String × Option Json)) : List (String × Json) :=
  fields.filterMap fun f => f.2.map fun j => (f.1, j)

end Json

end EmbeddedMarkup
