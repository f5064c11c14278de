/-
Markup regions: the interiors of the `UI!` calls of a host text. A call is the name, any blanks, an
opener and everything up to the closer that balances it; only delimiters of the opener's kind count.
-/
import EmbeddedMarkup.Text.Blank

namespace EmbeddedMarkup

/-- The delimiters that may enclose the markup of a call. -/
inductive Delimiter where
  | brace
  | paren
  | bracket
  deriving DecidableEq, Repr, Inhabited

namespace Delimiter

/-- The character that opens. -/
def opener : Delimiter → Char
  | brace => '{'
  | paren => '('
  | bracket => '['

/-- The character that closes. -/
def closer : Delimiter → Char
  | brace => '}'
  | paren => ')'
  | bracket => ']'

/-- The delimiter that `c` opens. -/
def ofOpener? (c : Char) : Option Delimiter :=
  if c = '{' then some brace
  else if c = '(' then some paren
  else if c = '[' then some bracket
  else none

end Delimiter

/-- A span of bytes of a host text. -/
structure Region where
  /-- The offset of the first byte. -/
  start : Nat
  /-- The offset just behind the last byte. -/
  stop : Nat
  deriving DecidableEq, Repr, Inhabited

namespace Region

/-- The number of bytes; none for a backward span. -/
def length (r : Region) : Nat :=
  r.stop - r.start

/-- Whether `o` lies in the region or at one of its ends. -/
def contains (r : Region) (o : Nat) : Bool :=
  r.start ≤ o && o ≤ r.stop

/-- The first of `regions` that contains `o`. -/
def at? (regions : List Region) (o : Nat) : Option Region :=
  regions.find? fun r => r.contains o

/-! ## Scanning -/

/-- The start of a call, as far as its opener. -/
structure Trigger where
  delimiter : Delimiter
  /-- The number of bytes from the name to the opener, both included. -/
  length : Nat
  rest : Text

/-- The call whose name stands at the very start of `t`. -/
def trigger? : Text → Option Trigger
  | 'U' :: 'I' :: '!' :: t =>
    match t.dropWhile Text.isBlank with
    | [] => none
    | c :: rest =>
      (Delimiter.ofOpener? c).map fun d =>
        ⟨d, 3 + Text.byteLength (t.takeWhile Text.isBlank) + 1, rest⟩
  | _ => none

/-- Reads up to the closer that brings the depth to zero, `depth` being the number of openers still
to be closed before it and `bytes` the number of bytes read so far: the number of bytes before that
closer, and what follows it. -/
def close? (d : Delimiter) (depth bytes : Nat) : Text → Option (Nat × Text)
  | [] => none
  | c :: t =>
    if c = d.closer then
      match depth with
      | 0 => some (bytes, t)
      | depth + 1 => close? d depth (bytes + c.utf8Size) t
    else if c = d.opener then
      close? d (depth + 1) (bytes + c.utf8Size) t
    else
      close? d depth (bytes + c.utf8Size) t

/-- What follows a trigger is shorter than the text. -/
theorem trigger?_length {t : Text} {g : Trigger} (h : trigger? t = some g) :
    g.rest.length < t.length := by
  unfold trigger? at h
  split at h
  · rename_i t
    split at h
    · simp at h
    · rename_i c rest hd
      obtain ⟨d, _, rfl⟩ := Option.map_eq_some_iff.1 h
      have := (List.dropWhile_suffix (l := t) Text.isBlank).length_le
      rw [hd] at this
      simp only [List.length_cons] at this ⊢
      omega
  · simp at h

/-- What follows a closer is shorter than the text. -/
theorem close?_length {d : Delimiter} {depth bytes n : Nat} {t rest : Text}
    (h : close? d depth bytes t = some (n, rest)) : rest.length < t.length := by
  induction t generalizing depth bytes with
  | nil => simp [close?] at h
  | cons c t ih =>
    unfold close? at h
    split at h
    · split at h
      · simp only [Option.some.injEq, Prod.mk.injEq] at h
        simp [h.2]
      · exact Nat.lt_succ_of_lt (ih h)
    · split at h <;> exact Nat.lt_succ_of_lt (ih h)

/-- The regions of the part `t` of a text that begins at byte offset `pos`. Behind a balanced call
the search goes on after its closer, behind an unbalanced one after its opener. -/
def scanFrom (pos : Nat) (t : Text) : List Region :=
  match t with
  | [] => []
  | c :: t' =>
    match _ : trigger? (c :: t') with
    | none => scanFrom (pos + c.utf8Size) t'
    | some g =>
      match hc : close? g.delimiter 0 0 g.rest with
      | none => scanFrom (pos + g.length) g.rest
      | some (n, rest) =>
        ⟨pos + g.length, pos + g.length + n⟩ :: scanFrom (pos + g.length + n + 1) rest
termination_by t.length
decreasing_by
  · simp
  · exact trigger?_length ‹_›
  · exact Nat.lt_trans (close?_length hc) (trigger?_length ‹_›)

/-- The markup regions of a host text, in order. -/
def scan (t : Text) : List Region :=
  scanFrom 0 t

end Region

end EmbeddedMarkup
