/-
Shapes of JSON values: what a message may hold at some place. A value that fits a shape is reduced
to what the shape knows: unknown fields are dropped, and optional fields that are null are left out.
-/
import EmbeddedMarkup.Json.Basic
import EmbeddedMarkup.Url.Reader

namespace EmbeddedMarkup

/-- What a JSON value has to look like. -/
inductive Shape where
  | any
  | string
  | flag
  | int32
  | nat32
  | number
  /-- A string that is a URL, which is brought into normal form. -/
  | url
  | word (choices : List String)
  | list (item : Shape)
  /-- An object with any names and values of one shape. -/
  | dictionary (value : Shape)
  /-- A record: the name of each field, whether it is required, and its shape. -/
  | record (fields : List (String × Bool × Shape))
  /-- The first of several shapes that fits. -/
  | oneOf (shapes : List Shape)
  deriving Inhabited

namespace Shape

mutual

/-- The part of `j` that the shape knows; `none` when `j` does not fit. -/
def reduce? (s : Shape) (j : Json) : Option Json :=
  match s with
  | any => some j
  | string => j.str?.map .str
  | flag => j.bool?.map .bool
  | int32 => j.int32?.map .int
  | nat32 => j.nat32?.map .nat
  | number =>
    match j with
    | .num n => some (.num n)
    | _ => none
  | url => (j.text?.bind Url.parse?).map fun u => .str u.toString
  | word choices => j.str?.bind fun w => if choices.contains w then some (.str w) else none
  | list item =>
    match j with
    | .arr items => (items.mapM (reduce? item)).map .arr
    | _ => none
  | dictionary value =>
    match j with
    | .obj fields => (fields.mapM fun f => (reduce? value f.2).map (f.1, ·)).map .obj
    | _ => none
  | record fields =>
    (j.record? (fields.map (·.1))).bind fun given => (reduceFields? fields given).map .obj
  | oneOf shapes => reduceFirst? shapes j

/-- The fields of a record that the shape knows. -/
def reduceFields? (fields : List (String × Bool × Shape)) (given : List (String × Json)) :
    Option (List (String × Json)) :=
  match fields with
  | [] => some []
  | (name, isRequired, s) :: rest =>
    match given.lookup name, isRequired with
    | none, true => none
    | none, false => reduceFields? rest given
    | some .null, false => reduceFields? rest given
    | some j, _ =>
      (reduce? s j).bind fun j => (reduceFields? rest given).map ((name, j) :: ·)

/-- The part of `j` that the first fitting shape knows. -/
def reduceFirst? (shapes : List Shape) (j : Json) : Option Json :=
  match shapes with
  | [] => none
  | s :: rest => (reduce? s j).or (reduceFirst? rest j)

end

/-- Whether `j` fits the shape. -/
def fits (s : Shape) (j : Json) : Bool :=
  (s.reduce? j).isSome

end Shape

/-- A field that a record must have. -/
def Shape.needs (name : String) (s : Shape) : String × Bool × Shape :=
  (name, true, s)

/-- A field that a record may have. -/
def Shape.may (name : String) (s : Shape) : String × Bool × Shape :=
  (name, false, s)

end EmbeddedMarkup
