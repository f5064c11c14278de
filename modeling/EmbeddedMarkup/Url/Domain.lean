/-
Domain names in a URL: mapping to lower case, the characters that are refused, and the ASCII form of
a label with other letters (Punycode). For names with letters beyond ASCII this approximates UTS #46:
of its compatibility mappings there is only that of wide letters (`ﬁ` is not taken for `fi`), labels are
not brought into the normal form NFC, and labels that begin with `xn--` are not checked.
-/
import EmbeddedMarkup.Url.Ip

namespace EmbeddedMarkup.Url

/-! ## Punycode -/

/-- The digit for `n < 36`: letters first. -/
def punycodeDigit (n : Nat) : Char :=
  if n < 26 then Char.ofNat ('a'.toNat + n) else Char.ofNat ('0'.toNat + (n - 26))

/-- Divides by 35 until at most 455 is left, counting 36 for each division. -/
def adaptSteps : Nat → Nat → Nat → Nat × Nat
  | 0, delta, k => (delta, k)
  | fuel + 1, delta, k => if 455 < delta then adaptSteps fuel (delta / 35) (k + 36) else (delta, k)

/-- The bias after a delta, of which `points` characters were written so far. -/
def adapt (delta points : Nat) (first : Bool) : Nat :=
  let delta := if first then delta / 700 else delta / 2
  let (delta, k) := adaptSteps 64 (delta + delta / points) 0
  k + 36 * delta / (delta + 38)

/-- The threshold at place `k`. -/
def threshold (k bias : Nat) : Nat :=
  if k ≤ bias then 1 else if bias + 26 ≤ k then 26 else k - bias

/-- A delta as digits of varying weight, from place `k` on. -/
def deltaDigits (bias : Nat) : Nat → Nat → Nat → Text
  | 0, _, _ => []
  | fuel + 1, k, q =>
    let t := threshold k bias
    if q < t then
      [punycodeDigit q]
    else
      punycodeDigit (t + (q - t) % (36 - t)) :: deltaDigits bias fuel (k + 36) ((q - t) / (36 - t))

/-- What has been written of a label, and the state of its coding. -/
structure PunycodeState where
  /-- The digits so far. -/
  output : Text
  /-- What the next character is coded relative to. -/
  delta : Nat
  bias : Nat
  /-- The number of characters coded. -/
  coded : Nat

/-- Passes one character of the label while those with code point `n` are coded. -/
def PunycodeState.pass (basic n : Nat) (s : PunycodeState) (c : Char) : PunycodeState :=
  if c.toNat < n then
    { s with delta := s.delta + 1 }
  else if c.toNat = n then
    { output := s.output ++ deltaDigits s.bias 64 36 s.delta
      delta := 0
      bias := adapt s.delta (s.coded + 1) (s.coded = basic)
      coded := s.coded + 1 }
  else
    s

/-- The Punycode form of a label. -/
def punycode (label : Text) : Text :=
  let basic := label.filter (·.toNat < 0x80)
  let others := ((label.map Char.toNat).filter (0x80 ≤ ·)).mergeSort.eraseDups
  let start : PunycodeState × Nat := (⟨[], 0, 72, basic.length⟩, 0x80)
  let (s, _) := others.foldl (fun (s, n) m =>
    let s := { s with delta := s.delta + (m - n) * (s.coded + 1) }
    let s := label.foldl (PunycodeState.pass basic.length m) s
    ({ s with delta := s.delta + 1 }, m + 1)) start
  basic ++ (if basic.isEmpty then [] else ['-']) ++ s.output

/-! ## Names -/

/-- Upper-case letters with their lower-case forms at a fixed distance: first, last and distance of
each block. -/
def caseBlocks : List (Nat × Nat × Nat) :=
  [(0x41, 0x5A, 32), (0xC0, 0xD6, 32), (0xD8, 0xDE, 32), (0x391, 0x3A1, 32), (0x3A3, 0x3AB, 32),
    (0x400, 0x40F, 80), (0x410, 0x42F, 32)]

/-- Blocks of letters in pairs, each upper-case letter before its lower-case form: first, last and
whether the upper-case letters are the odd ones. -/
def casePairs : List (Nat × Nat × Nat) :=
  [(0x100, 0x12F, 0), (0x132, 0x137, 0), (0x139, 0x148, 1), (0x14A, 0x177, 0), (0x179, 0x17E, 1),
    (0x370, 0x373, 0), (0x460, 0x481, 0), (0x48A, 0x4BF, 0), (0x4D0, 0x52F, 0), (0x1E00, 0x1E95, 0),
    (0x1EA0, 0x1EFF, 0)]

/-- Characters that a domain name may hold and that are dropped, such as a soft hyphen: first and
last of each run. -/
def droppedInName : List (Nat × Nat) :=
  [(0xAD, 0xAD), (0x34F, 0x34F), (0x180B, 0x180D), (0x200B, 0x200B), (0x2060, 0x2060),
    (0xFE00, 0xFE0F), (0xFEFF, 0xFEFF)]

/-- What a character of a domain name is mapped to: lower case, the common width, a full stop for
its other forms, and nothing where it is dropped. -/
def mapNameChar (c : Char) : Text :=
  let n := c.toNat
  let n := if 0xFF01 ≤ n ∧ n ≤ 0xFF5E then n - 0xFEE0 else n
  if droppedInName.any fun b => b.1 ≤ n && n ≤ b.2 then []
  else if n = 0x3002 ∨ n = 0xFF61 then ['.']
  else
    match caseBlocks.find? fun b => b.1 ≤ n && n ≤ b.2.1 with
    | some b => [Char.ofNat (n + b.2.2)]
    | none =>
      match casePairs.find? fun b => b.1 ≤ n && n ≤ b.2.1 && n % 2 == b.2.2 with
      | some _ => [Char.ofNat (n + 1)]
      | none => [Char.ofNat n]

/-- Characters that no domain name may hold: ASCII that has a meaning in a URL, controls, joiners and
the mark of a broken character. -/
def isForbiddenInName (c : Char) : Bool :=
  c.toNat ≤ 0x20 || (0x7F ≤ c.toNat && c.toNat ≤ 0x9F) || c.toNat == 0x200C || c.toNat == 0x200D ||
    c.toNat == 0xFFFD ||
    ['%', '#', '/', ':', '<', '>', '?', '@', '[', '\\', ']', '^', '|'].contains c

/-- A label in ASCII. -/
def asciiLabel (label : Text) : Text :=
  if label.all (·.toNat < 0x80) then label else ['x', 'n', '-', '-'] ++ punycode label

/-- The ASCII form of a domain name. -/
def asciiName? (t : Text) : Option Text :=
  let mapped := t.flatMap mapNameChar
  if mapped.any isForbiddenInName then
    none
  else
    some (['.'].intercalate ((splitOn '.' mapped).map asciiLabel))

end EmbeddedMarkup.Url
