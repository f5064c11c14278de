/-
Finite binary64 numbers in exact integer arithmetic: rounding a ratio to the nearest of them,
reading a decimal, and finding the shortest decimal that stands for one.
-/

namespace EmbeddedMarkup

/-- A finite binary64 number, `mantissa * 2 ^ exponent` with a sign. The mantissa is below `2 ^ 53`,
and at least `2 ^ 52` unless the exponent is the least one, `-1074`. -/
structure Double where
  /-- Whether the sign is minus; zero has a sign too. -/
  negative : Bool
  /-- The digits in base two. -/
  mantissa : Nat
  /-- The power of two that scales the mantissa. -/
  exponent : Int
  deriving DecidableEq, Repr, Inhabited

namespace Double

/-! ## Rounding -/

/-- The integer nearest to `num / den`; a half goes to the even neighbour. -/
def roundQuotient (num den : Nat) : Nat :=
  let q := num / den
  let r := num % den
  if 2 * r < den then q else if den < 2 * r then q + 1 else q + q % 2

/-- `n * 2 ^ e` as a ratio of integers. -/
def scale (n : Nat) (e : Int) : Nat × Nat :=
  if 0 ≤ e then (n * Nat.pow 2 e.toNat, 1) else (n, Nat.pow 2 (-e).toNat)

/-- The number nearest to `num / den`; `none` when that is beyond the largest. -/
def ofRatio? (negative : Bool) (num den : Nat) : Option Double :=
  if num = 0 then
    some ⟨negative, 0, -1074⟩
  else
    let guess : Int := (num.log2 : Int) - (den.log2 : Int) - 52
    let (n, d) := scale den guess
    let e := max (if num * d < n * 0x10000000000000 then guess - 1 else guess) (-1074)
    let (n, d) := scale den e
    let m := roundQuotient (num * d) n
    let (m, e) := if m = 0x20000000000000 then (0x10000000000000, e + 1) else (m, e)
    if 971 < e then none else some ⟨negative, m, e⟩

/-- The absolute value as a ratio of integers. -/
def ratio (x : Double) : Nat × Nat :=
  scale x.mantissa x.exponent

/-- The absolute value of `x * 10 ^ k` or, dividing, of `x / 10 ^ k`, where the power of ten is
itself rounded to a binary64 number first. -/
def byPowerOfTen? (x : Double) (k : Nat) (dividing : Bool) : Option Double := do
  let power ← ofRatio? false (Nat.pow 10 k) 1
  let (a, b) := x.ratio
  let (c, d) := power.ratio
  if dividing then ofRatio? x.negative (a * d) (b * c) else ofRatio? x.negative (a * c) (b * d)

/-! ## Decimals -/

/-- The largest power of ten that is a finite number. -/
def maxPower : Nat := 308

/-- `x` divided `n` times by the largest power of ten. -/
def divMaxPower (x : Double) : Nat → Option Double
  | 0 => some x
  | n + 1 =>
    if x.mantissa = 0 then some x else (x.byPowerOfTen? maxPower true).bind fun y => divMaxPower y n

/-- `x / 10 ^ k`, taking out the largest power of ten while more than that is left. -/
def divPowerOfTen (x : Double) (k : Nat) : Option Double :=
  let n := (k - 1) / maxPower
  (x.divMaxPower n).bind fun y => y.byPowerOfTen? (k - n * maxPower) true

/-- The number for `significand * 10 ^ exponent`. The significand is rounded first and scaled then,
which rounds again; `none` when the result is beyond the largest number. -/
def ofDecimal? (negative : Bool) (significand : Nat) (exponent : Int) : Option Double := do
  let x ← ofRatio? negative significand 1
  if exponent < 0 then
    x.divPowerOfTen (-exponent).toNat
  else if exponent.toNat ≤ maxPower then
    x.byPowerOfTen? exponent.toNat false
  else if x.mantissa = 0 then
    some x
  else
    none

/-- The least `k` from `k` on with `den ≤ num * 10 ^ k`. -/
def raise (num den : Nat) : Nat → Nat → Nat
  | 0, k => k
  | fuel + 1, k => if den ≤ num * Nat.pow 10 k then k else raise num den fuel (k + 1)

/-- The power of ten of the first digit of `num / den`. -/
def decimalOrder (num den : Nat) : Int :=
  if den ≤ num then (Nat.toDigits 10 (num / den)).length - 1 else -(raise num den 400 0 : Int)

/-- Whether `c * 10 ^ p` is rounded to `x`. -/
def isRoundedFrom (x : Double) (c : Nat) (p : Int) : Bool :=
  let (n, d) := if 0 ≤ p then (c * Nat.pow 10 p.toNat, 1) else (c, Nat.pow 10 (-p).toNat)
  match ofRatio? x.negative n d with
  | some y => y == x
  | none => false

/-- The nearer of the two multiples of `10 ^ p` around `x` that are rounded to `x`. -/
def onGrid? (x : Double) (p : Int) : Option Nat :=
  let (n, d) := x.ratio
  let (n, d) := if 0 ≤ p then (n, d * Nat.pow 10 p.toNat) else (n * Nat.pow 10 (-p).toNat, d)
  let below := n / d
  let near := if roundQuotient n d = below then [below, below + 1] else [below + 1, below]
  near.find? fun c => isRoundedFrom x c p

/-- The first grid, from `digits` digits on, with a multiple that is rounded to `x`. -/
def shortestFrom (x : Double) (order : Int) : Nat → Nat → Nat × Int
  | 0, _ => (x.ratio.1 / x.ratio.2, 0)
  | fuel + 1, digits =>
    let p := order - digits + 1
    match onGrid? x p with
    | some c => (c, p)
    | none => shortestFrom x order fuel (digits + 1)

/-- The shortest decimal `c * 10 ^ p` that is rounded to `x`, without trailing zeros. -/
def shortest (x : Double) : Nat × Int :=
  let (n, d) := x.ratio
  let (c, p) := shortestFrom x (decimalOrder n d) 17 1
  if c % 10 = 0 ∧ 0 < c then (c / 10, p + 1) else (c, p)

/-! ## Text -/

/-- The text of a number: its shortest decimal, positional from `1e-5` up to `1e16` and always with
a point there, otherwise in exponent form without a plus sign. -/
def toText (x : Double) : List Char :=
  let sign := if x.negative then ['-'] else []
  if x.mantissa = 0 then
    sign ++ ['0', '.', '0']
  else
    let (c, p) := x.shortest
    let digits := Nat.toDigits 10 c
    let point : Int := digits.length + p
    sign ++
      if 0 ≤ p ∧ point ≤ 16 then
        digits ++ List.replicate p.toNat '0' ++ ['.', '0']
      else if 0 < point ∧ point ≤ 16 then
        digits.take point.toNat ++ ['.'] ++ digits.drop point.toNat
      else if -5 < point ∧ point ≤ 0 then
        ['0', '.'] ++ List.replicate (-point).toNat '0' ++ digits
      else
        let e := point - 1
        let power := (if e < 0 then ['-'] else []) ++ Nat.toDigits 10 e.natAbs
        match digits with
        | [] => ['0', '.', '0']
        | [d] => d :: 'e' :: power
        | d :: rest => d :: '.' :: rest ++ 'e' :: power

end Double

end EmbeddedMarkup
