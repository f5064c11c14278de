/-
IP addresses as hosts of a URL: the forms of an IPv4 number that are accepted, and IPv6 addresses in
brackets.
-/
import EmbeddedMarkup.Text.Decimal

namespace EmbeddedMarkup.Url

/-- The parts of `t` between the occurrences of `sep`, of which there is at least one. -/
def splitOn (sep : Char) : Text → List Text
  | [] => [[]]
  | c :: t =>
    if c = sep then
      [] :: splitOn sep t
    else
      match splitOn sep t with
      | [] => [[c]]
      | part :: parts => (c :: part) :: parts

/-- The value of a digit in a base up to sixteen. -/
def digitValue? (base : Nat) (c : Char) : Option Nat :=
  let v :=
    if c.isDigit then c.toNat - '0'.toNat
    else if 'a' ≤ c ∧ c ≤ 'f' then c.toNat - 'a'.toNat + 10
    else if 'A' ≤ c ∧ c ≤ 'F' then c.toNat - 'A'.toNat + 10
    else base
  if v < base then some v else none

/-- The number that digits write in a base up to sixteen; zero without digits. -/
def digitsValue? (base : Nat) (t : Text) : Option Nat :=
  t.foldlM (fun n c => (digitValue? base c).map (n * base + ·)) 0

/-! ## Version 4 -/

/-- One part of an IPv4 address: hexadecimal behind `0x`, octal behind another zero, else
decimal. -/
def ipv4Number? (t : Text) : Option Nat :=
  match t with
  | [] => none
  | '0' :: 'x' :: ds => digitsValue? 16 ds
  | '0' :: 'X' :: ds => digitsValue? 16 ds
  | '0' :: d :: ds => digitsValue? 8 (d :: ds)
  | ds => digitsValue? 10 ds

/-- The dot-separated parts, without an empty last one. -/
def ipv4Parts (t : Text) : List Text :=
  let parts := splitOn '.' t
  if parts.getLast? = some [] then parts.dropLast else parts

/-- Whether a domain ends in a number, so that it has to be an IPv4 address. -/
def endsInNumber (t : Text) : Bool :=
  match (ipv4Parts t).getLast? with
  | none => false
  | some last => (!last.isEmpty && last.all Char.isDigit) || (ipv4Number? last).isSome

/-- The address that `t` writes: up to four parts, of which the last takes all bytes left over. -/
def ipv4? (t : Text) : Option Nat := do
  let numbers ← (ipv4Parts t).mapM ipv4Number?
  let last ← numbers.getLast?
  let leading := numbers.dropLast
  if leading.length ≤ 3 ∧ leading.all (· ≤ 255) ∧ last < Nat.pow 256 (4 - leading.length) then
    return (leading.zipIdx.foldl (fun a n => a + n.1 * Nat.pow 256 (3 - n.2)) last)
  else
    none

/-- The four parts of an address in decimal. -/
def ipv4Text (a : Nat) : Text :=
  let part (i : Nat) : Text := Decimal.digits (a / Nat.pow 256 i % 256)
  part 3 ++ '.' :: part 2 ++ '.' :: part 1 ++ '.' :: part 0

/-! ## Version 6 -/

/-- One part of an IPv6 address: up to four hexadecimal digits. -/
def ipv6Piece? (t : Text) : Option Nat :=
  if t.isEmpty || 4 < t.length then none else digitsValue? 16 t

/-- One part of the IPv4 address at the end of an IPv6 address: decimal, without leading zeros. -/
def ipv6Byte? (t : Text) : Option Nat := do
  let n ← if t.isEmpty then none else digitsValue? 10 t
  if n ≤ 255 ∧ (t.length = 1 ∨ t.head? ≠ some '0') then return n else none

/-- The pieces that colon-separated parts write; the last part may be an IPv4 address. -/
def ipv6Pieces? : List Text → Option (List Nat)
  | [] => some []
  | [last] =>
    if last.contains '.' then do
      match ← (splitOn '.' last).mapM ipv6Byte? with
      | [a, b, c, d] => return [a * 256 + b, c * 256 + d]
      | _ => none
    else
      (ipv6Piece? last).map ([·])
  | part :: parts => do
    return (← ipv6Piece? part) :: (← ipv6Pieces? parts)

/-- The text before and behind the first double colon. -/
def splitGap? : Text → Option (Text × Text)
  | [] => none
  | ':' :: ':' :: t => some ([], t)
  | c :: t => (splitGap? t).map fun r => (c :: r.1, r.2)

/-- The pieces of one side of a double colon, which may be empty. -/
def ipv6Side? (t : Text) : Option (List Nat) :=
  if t.isEmpty then some [] else ipv6Pieces? (splitOn ':' t)

/-- The eight pieces that `t` writes; a double colon stands for as many zeros as are missing. -/
def ipv6? (t : Text) : Option (List Nat) := do
  match splitGap? t with
  | none =>
    let pieces ← ipv6Pieces? (splitOn ':' t)
    if pieces.length = 8 then return pieces else none
  | some (before, behind) =>
    if before.contains '.' then
      none
    else
      let a ← ipv6Side? before
      let b ← ipv6Side? behind
      if a.length + b.length ≤ 7 then
        return a ++ List.replicate (8 - a.length - b.length) 0 ++ b
      else
        none

/-- The number of zeros at the start of a list. -/
def zeroRun (pieces : List Nat) : Nat :=
  (pieces.takeWhile (· == 0)).length

/-- The start and length of the first longest run of at least two zeros. -/
def longestZeros (pieces : List Nat) : Option (Nat × Nat) :=
  (List.range pieces.length).foldl (fun best i =>
    let n := zeroRun (pieces.drop i)
    if best.elim 1 (·.2) < n then some (i, n) else best) none

/-- Pieces in hexadecimal with colons between them. -/
def ipv6Run (pieces : List Nat) : Text :=
  [':'].intercalate (pieces.map (Nat.toDigits 16))

/-- The text of an address, the longest run of zeros written as a double colon. -/
def ipv6Text (pieces : List Nat) : Text :=
  match longestZeros pieces with
  | none => ipv6Run pieces
  | some (i, n) => ipv6Run (pieces.take i) ++ [':', ':'] ++ ipv6Run (pieces.drop (i + n))

end EmbeddedMarkup.Url
