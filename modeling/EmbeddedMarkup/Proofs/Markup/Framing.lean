/-
Framing over whole streams. A message may be `Written` with any header: a `FieldLine` is not blank, the
lines stand in any order, each with either end, and just one gives the length of the body. `Frame.read`
takes that header and that many bytes, whatever stands in the body or behind it, so that a stream of
messages is read as those messages, to its end. What `Frame.encode` gives is such a stream.
-/
import EmbeddedMarkup.Markup.Frame
import EmbeddedMarkup.Proofs.Text.Blank
import EmbeddedMarkup.Proofs.Text.Codecs
import Mathlib

namespace EmbeddedMarkup.Frame

/-! ## Messages as they may be written -/

/-- A line of a header: its text, and whether a carriage return stands in front of its line feed. -/
structure FieldLine where
  text : Text
  hasReturn : Bool
  deriving DecidableEq, Repr

namespace FieldLine

def front (l : FieldLine) : Text :=
  l.text ++ if l.hasReturn then ['\r'] else []

def bytes (l : FieldLine) : List UInt8 :=
  Utf8.encode (l.front ++ ['\n'])

/-- Whether a line is one, and not blank. -/
def IsProper (l : FieldLine) : Prop :=
  '\n' ∉ l.text ∧ ∃ c ∈ l.text, Text.isBlank c = false

/-- Whether a line gives a value to a name: the first colon is between the two, and blanks around
them do not count. -/
def Gives (l : FieldLine) (name value : Text) : Prop :=
  ∃ a b, l.text = a ++ ':' :: b ∧ ':' ∉ a ∧ name = Text.trim a ∧ value = Text.trim b

def GivesLength (l : FieldLine) (n : Nat) : Prop :=
  ∃ name value, l.Gives name value ∧ isLengthName name = true ∧ Decimal.read? 64 value = some n

/-- Whether a line says nothing about lengths, by `isLengthName`. -/
def IsOther (l : FieldLine) : Prop :=
  ∀ name value, l.Gives name value → isLengthName name = false

end FieldLine

/-- A message as it may be written: the lines of its header, an empty line with either end, and its
body. -/
structure Written where
  lines : List FieldLine
  hasReturn : Bool
  body : List UInt8
  deriving DecidableEq, Repr

namespace Written

def bytes (w : Written) : List UInt8 :=
  w.lines.flatMap FieldLine.bytes ++ FieldLine.bytes ⟨[], w.hasReturn⟩ ++ w.body

/-- Whether a message is written in due form and its body is the text of `j`: of the lines of its
header just one gives a length, and that is the length of the body in bytes. -/
structure Carries (w : Written) (j : Json) : Prop where
  proper : ∀ l ∈ w.lines, l.IsProper
  length : ∃ front line back, w.lines = front ++ line :: back ∧ line.GivesLength w.body.length ∧
    ∀ l ∈ front ++ back, l.IsOther
  body : (Utf8.decode? w.body).bind Json.parse? = some j

end Written

/-! ## What a line says -/

namespace FieldLine

/-- The end of a line is no part of it once that is trimmed. -/
theorem trim_front (l : FieldLine) : Text.trim l.front = Text.trim l.text := by
  refine Text.trim_append_of_blank l.text fun c hc => ?_
  split at hc
  · rw [List.mem_singleton.1 hc]
    decide
  · cases hc

/-- `HeaderLine.ofBytes` cuts a line at its first colon. -/
theorem ofBytes_of_colon {l : FieldLine} {a b : Text} (ht : l.text = a ++ ':' :: b) (ha : ':' ∉ a) :
    HeaderLine.ofBytes (Utf8.encode l.front) =
      if isLengthName (Text.trim a) then .length (Decimal.read? 64 (Text.trim b)) else .other := by
  have htrim : Text.trim l.front = Text.trimStart a ++ ':' :: Text.trimEnd b := by
    rw [trim_front, ht, Text.trim_cut a b (by decide)]
  -- no colon is in front of the one that divides the line, also when the blanks are gone
  have hne : ∀ c ∈ Text.trimStart a, decide (c ≠ ':') = true := fun c hc =>
    decide_eq_true fun he => ha (he ▸ (List.dropWhile_suffix _).subset hc)
  unfold HeaderLine.ofBytes
  rw [Utf8.decode?_encode]
  simp only [htrim]
  split
  · rename_i hnil
    simp at hnil
  · rw [List.dropWhile_append_of_pos hne, List.takeWhile_append_of_pos hne, List.dropWhile_cons_of_neg (by simp),
      List.takeWhile_cons_of_neg (by simp), List.append_nil]
    simp only [Text.trim_trimStart, Text.trim_trimEnd]

/-- What stands in front of the first colon decides whether a line gives a length. -/
theorem isOther_of_takeWhile {l : FieldLine} (h : isLengthName (Text.trim (l.text.takeWhile (· ≠ ':'))) = false) :
    l.IsOther := by
  rintro _ _ ⟨a, b, ht, ha, rfl, -⟩
  have hne : ∀ c ∈ a, decide (c ≠ ':') = true := fun c hc => decide_eq_true fun he => ha (he ▸ hc)
  rw [ht, List.takeWhile_append_of_pos hne, List.takeWhile_cons_of_neg (by simp), List.append_nil] at h
  exact h

theorem ofBytes_of_givesLength {l : FieldLine} {n : Nat} (h : l.GivesLength n) :
    HeaderLine.ofBytes (Utf8.encode l.front) = .length (some n) := by
  obtain ⟨_, _, ⟨a, b, ht, ha, rfl, rfl⟩, hname, hvalue⟩ := h
  rw [ofBytes_of_colon ht ha, if_pos hname, hvalue]

theorem ofBytes_of_isOther {l : FieldLine} (hl : l.IsProper) (ho : l.IsOther) :
    HeaderLine.ofBytes (Utf8.encode l.front) = .other := by
  by_cases hcolon : ':' ∈ l.text
  · obtain ⟨a, b, ht, ha⟩ := List.eq_append_cons_of_mem hcolon
    have hname := ho _ _ ⟨a, b, ht, ha, rfl, rfl⟩
    rw [ofBytes_of_colon ht ha, hname]
    rfl
  · obtain ⟨-, c, hc, hblank⟩ := hl
    have hne : Text.trim l.text ≠ [] := by
      obtain ⟨x, y, hxy⟩ := List.append_of_mem hc
      rw [hxy, Text.trim_cut x y hblank]
      simp
    have hno : ∀ d ∈ Text.trim l.text, decide (d ≠ ':') = true := by
      intro d hd
      simp only [decide_eq_true_eq]
      rintro rfl
      exact hcolon (Text.mem_of_mem_trim hd)
    unfold HeaderLine.ofBytes
    rw [Utf8.decode?_encode]
    simp only [trim_front, List.dropWhile_eq_nil_iff.2 hno]

end FieldLine

/-! ## Reading line by line -/

section Reading

variable (isEnded : Bool) (length : Option Nat)

/-- `readFrom` reads a line to its line feed, and counts it for what it says. -/
theorem readFrom_append {line : List UInt8} (h : 0x0A ∉ line) (start rest : List UInt8) :
    readFrom isEnded start length (line ++ 0x0A :: rest) =
      match HeaderLine.ofBytes (start.reverse ++ line) with
      | .invalid => .error (.failed .io)
      | .blank => readBody isEnded length rest
      | .length n => readFrom isEnded [] n rest
      | .other => readFrom isEnded [] length rest := by
  induction line generalizing start with
  | nil =>
    rewrite [List.nil_append, readFrom, if_pos rfl, List.append_nil]
    cases HeaderLine.ofBytes start.reverse <;> rfl
  | cons b line ih =>
    have hb : b ≠ 0x0A := fun he => h (he ▸ List.mem_cons_self ..)
    rw [List.cons_append, readFrom, if_neg hb, ih fun hm => h (List.mem_cons_of_mem _ hm)]
    simp

theorem readFrom_line {l : FieldLine} (h : '\n' ∉ l.text) (rest : List UInt8) :
    readFrom isEnded [] length (l.bytes ++ rest) =
      match HeaderLine.ofBytes (Utf8.encode l.front) with
      | .invalid => .error (.failed .io)
      | .blank => readBody isEnded length rest
      | .length n => readFrom isEnded [] n rest
      | .other => readFrom isEnded [] length rest := by
  have hfront : '\n' ∉ l.front := by
    unfold FieldLine.front
    split <;> simp [h]
  have hbytes : l.bytes ++ rest = Utf8.encode l.front ++ 0x0A :: rest := by
    unfold FieldLine.bytes
    rw [Utf8.encode_append, List.append_assoc]
    rfl
  rw [hbytes, readFrom_append isEnded length (Utf8.newline_not_mem_encode hfront)]
  rfl

theorem readFrom_empty (hasReturn : Bool) (rest : List UInt8) :
    readFrom isEnded [] length (FieldLine.bytes ⟨[], hasReturn⟩ ++ rest) = readBody isEnded length rest := by
  have hblank : HeaderLine.ofBytes (Utf8.encode (FieldLine.front ⟨[], hasReturn⟩)) = .blank := by
    cases hasReturn <;> decide
  rw [readFrom_line isEnded length (by simp), hblank]

/-- `readFrom` passes over lines that say nothing about lengths. -/
theorem readFrom_others {lines : List FieldLine} (h : ∀ l ∈ lines, l.IsProper ∧ l.IsOther) (rest : List UInt8) :
    readFrom isEnded [] length (lines.flatMap FieldLine.bytes ++ rest) = readFrom isEnded [] length rest := by
  induction lines with
  | nil => rfl
  | cons l lines ih =>
    obtain ⟨hl, ho⟩ := h l (List.mem_cons_self ..)
    rw [List.flatMap_cons, List.append_assoc, readFrom_line isEnded length hl.1, FieldLine.ofBytes_of_isOther hl ho]
    exact ih fun l hl => h l (List.mem_cons_of_mem _ hl)

theorem readBody_append {body : List UInt8} {j : Json} (h : (Utf8.decode? body).bind Json.parse? = some j)
    (rest : List UInt8) : readBody isEnded (some body.length) (body ++ rest) = .ok (j, rest) := by
  have hlong : ¬ (body ++ rest).length < body.length := by simp
  simp only [readBody]
  rw [if_neg hlong, List.take_left, List.drop_left, h]

/-- `read` takes a message in due form, and nothing behind it. -/
theorem read_append {w : Written} {j : Json} (h : w.Carries j) (rest : List UInt8) :
    read isEnded (w.bytes ++ rest) = .ok (j, rest) := by
  obtain ⟨front, line, back, hlines, hline, hothers⟩ := h.length
  have hproper : ∀ l ∈ front ++ line :: back, l.IsProper := hlines ▸ h.proper
  have hfront : ∀ l ∈ front, l.IsProper ∧ l.IsOther := fun l hl =>
    ⟨hproper l (by simp [hl]), hothers l (by simp [hl])⟩
  have hback : ∀ l ∈ back, l.IsProper ∧ l.IsOther := fun l hl =>
    ⟨hproper l (by simp [hl]), hothers l (by simp [hl])⟩
  have hbytes : w.bytes ++ rest = front.flatMap FieldLine.bytes ++ (line.bytes ++ (back.flatMap FieldLine.bytes ++
      (FieldLine.bytes ⟨[], w.hasReturn⟩ ++ (w.body ++ rest)))) := by
    unfold Written.bytes
    rw [hlines]
    simp
  unfold read
  rw [hbytes, readFrom_others isEnded none hfront, readFrom_line isEnded none (hproper line (by simp)).1,
    FieldLine.ofBytes_of_givesLength hline]
  simp only
  rw [readFrom_others isEnded _ hback, readFrom_empty, readBody_append isEnded h.body]

end Reading

/-! ## Streams -/

theorem readMany_append {ms : List (Written × Json)} (h : ∀ m ∈ ms, m.1.Carries m.2) {count : Nat}
    (hcount : ms.length ≤ count) (isEnded : Bool) (rest : List UInt8) :
    readMany isEnded count (ms.flatMap (·.1.bytes) ++ rest) =
      (ms.map (·.2) ++ (readMany isEnded (count - ms.length) rest).1,
        (readMany isEnded (count - ms.length) rest).2) := by
  induction ms generalizing count with
  | nil => simp
  | cons m ms ih =>
    obtain ⟨count, rfl⟩ : ∃ k, count = k + 1 := ⟨count - 1, by simp at hcount; omega⟩
    have hcount' : ms.length ≤ count := by simpa using hcount
    have hrest := ih (fun m hm => h m (List.mem_cons_of_mem _ hm)) hcount'
    rw [List.flatMap_cons, List.append_assoc, readMany, read_append isEnded (h m (List.mem_cons_self ..))]
    simp only [hrest, List.map_cons, List.cons_append, List.length_cons, Nat.add_sub_add_right]

theorem length_le_bytes (ms : List (Written × Json)) : ms.length ≤ (ms.flatMap (·.1.bytes)).length := by
  induction ms with
  | nil => simp
  | cons m ms ih =>
    -- the empty line alone has a byte
    have hpos : 0 < m.1.bytes.length := by
      unfold Written.bytes FieldLine.bytes
      have := Char.utf8Size_pos '\n'
      simp only [Utf8.encode, List.length_append, List.length_flatMap, List.flatMap_append, List.flatMap_singleton,
        String.length_utf8EncodeChar]
      omega
    simp only [List.flatMap_cons, List.length_append, List.length_cons]
    omega

theorem readAll_bytes {ms : List (Written × Json)} (h : ∀ m ∈ ms, m.1.Carries m.2) :
    readAll true (ms.flatMap (·.1.bytes)) = (ms.map (·.2), [], .closed) := by
  have hle := length_le_bytes ms
  have hread := readMany_append h (Nat.le_succ_of_le hle) true []
  obtain ⟨k, hk⟩ : ∃ k, (ms.flatMap (·.1.bytes)).length + 1 - ms.length = k + 1 :=
    ⟨(ms.flatMap (·.1.bytes)).length - ms.length, by omega⟩
  have hend : readMany true (k + 1) [] = ([], [], .closed) := rfl
  rw [hk, hend, List.append_nil, List.append_nil] at hread
  exact hread

/-! ## Messages as they are written here -/

theorem isBlank_of_isDigit {c : Char} (h : c.isDigit = true) : Text.isBlank c = false := by
  have : 48 ≤ c.toNat ∧ c.toNat ≤ 57 := by
    simpa [Char.isDigit, UInt32.le_iff_toNat_le] using h
  simp only [Text.isBlank, Text.blankRanges, List.any_cons, List.any_nil, Bool.or_false, Bool.or_eq_false_iff,
    Bool.and_eq_false_iff, decide_eq_false_iff_not]
  omega

theorem isProper_headerLine (n : Nat) : FieldLine.IsProper ⟨headerLine n, true⟩ := by
  constructor
  · intro hmem
    rcases List.mem_append.1 hmem with hmem | hmem
    · revert hmem
      decide
    · have := Decimal.isDigit_of_mem_digits hmem
      revert this
      decide
  · exact ⟨'C', List.mem_append_left _ (by decide), by decide⟩

theorem givesLength_headerLine {n : Nat} (h : n < 2 ^ 64) : FieldLine.GivesLength ⟨headerLine n, true⟩ n := by
  have hstart : Text.trimStart (' ' :: Decimal.digits n) = Text.trimStart (Decimal.digits n) :=
    List.dropWhile_cons_of_pos (by decide)
  have htrim : Text.trim (' ' :: Decimal.digits n) = Decimal.digits n := by
    rw [Text.trim, hstart]
    exact Text.trim_eq_self fun c hc => isBlank_of_isDigit (Decimal.isDigit_of_mem_digits hc)
  have htext : headerLine n = "Content-Length".toList ++ ':' :: ' ' :: Decimal.digits n := by
    unfold headerLine
    rw [show "Content-Length: ".toList = "Content-Length".toList ++ [':', ' '] by decide, List.append_assoc]
    rfl
  exact ⟨"Content-Length".toList, Decimal.digits n, ⟨_, _, htext, by decide, by decide +kernel, htrim.symm⟩,
    by decide, Decimal.read?_digits h⟩

/-- A message as it is written here. -/
def written (j : Json) : Written :=
  ⟨[⟨headerLine (body j).length, true⟩], true, body j⟩

theorem bytes_written (j : Json) : (written j).bytes = encode j := by
  unfold Written.bytes written encode wrap FieldLine.bytes FieldLine.front
  simp only [List.flatMap_cons, List.flatMap_nil, List.append_nil, List.nil_append, if_true, Utf8.encode_append,
    List.append_assoc]
  rfl

theorem carries_written {j : Json} (hparse : Json.parse? j.compact = some j) (hlen : (body j).length < 2 ^ 64) :
    (written j).Carries j := by
  constructor
  · intro l hl
    rw [List.mem_singleton.1 hl]
    exact isProper_headerLine _
  · exact ⟨[], _, [], rfl, givesLength_headerLine hlen, fun l hl => by cases hl⟩
  · show (Utf8.decode? (Utf8.encode j.compact)).bind Json.parse? = some j
    rw [Utf8.decode?_encode, Option.bind_some, hparse]

/-- Streams of messages are read back. Let each message be one whose text reads as the message. Then a
stream of messages that are written here is read as those messages, in order, and then has ended. So is
a stream of messages that are written in any due form: with either end of line, with any other fields in
front of the length and behind it, with the length under its name in any case, and with blanks around
both. And each message is read as far as it goes, whatever its body contains and whatever follows. -/
theorem streams_read_back :
    (∀ js : List Json, (∀ j ∈ js, Json.parse? j.compact = some j ∧ (body j).length < 2 ^ 64) →
      readAll true (js.flatMap encode) = (js, [], .closed)) ∧
    (∀ ms : List (Written × Json), (∀ m ∈ ms, m.1.Carries m.2) →
      readAll true (ms.flatMap (·.1.bytes)) = (ms.map (·.2), [], .closed)) ∧
    ∀ (w : Written) (j : Json), w.Carries j → ∀ (isEnded : Bool) (rest : List UInt8),
      read isEnded (w.bytes ++ rest) = .ok (j, rest) := by
  refine ⟨fun js hjs => ?_, fun ms hms => readAll_bytes hms, fun w j hw isEnded rest => read_append isEnded hw rest⟩
  have hcarries : ∀ m ∈ js.map fun j => (written j, j), m.1.Carries m.2 := by
    intro m hm
    obtain ⟨j, hj, rfl⟩ := List.mem_map.1 hm
    exact carries_written (hjs j hj).1 (hjs j hj).2
  have hread := readAll_bytes hcarries
  rw [List.flatMap_map, List.map_map] at hread
  simpa [bytes_written, Function.comp_def] using hread

/-- A message with a line feed in it, written here, and one between other fields that look like the one
that counts, with ends of both kinds, whose body has empty lines and looks like a header itself. -/
theorem streams_read_back_mixed :
    let j : Json := .arr [.str "é\n"]
    let w : Written :=
      ⟨[⟨"X: Content-Length: 1".toList, false⟩, ⟨" content-LENGTH :\t09 ".toList, true⟩, ⟨"é".toList, false⟩], false,
        Utf8.encode "\n\n\"A: é\"".toList⟩
    let j' : Json := .str "A: é"
    readAll true (encode j ++ encode j) = ([j, j], [], .closed) ∧
      readAll true (w.bytes ++ (written j).bytes) = ([j', j], [], .closed) ∧
      read false (w.bytes ++ [0x43]) = .ok (j', [0x43]) := by
  intro j w j'
  have hlen : (body j).length = 8 := by cbv
  have hj : Json.parse? j.compact = some j ∧ (body j).length < 2 ^ 64 := ⟨by cbv, by rw [hlen]; decide⟩
  have hbody : (Utf8.decode? w.body).bind Json.parse? = some j' := by cbv
  have hw : w.Carries j' := by
    refine ⟨?_, ⟨[⟨"X: Content-Length: 1".toList, false⟩], ⟨" content-LENGTH :\t09 ".toList, true⟩,
      [⟨"é".toList, false⟩], rfl, ?_, ?_⟩, hbody⟩
    · intro l hl
      simp only [w, List.mem_cons, List.not_mem_nil, or_false] at hl
      rcases hl with rfl | rfl | rfl
      · exact ⟨by decide, 'X', by decide, by decide⟩
      · exact ⟨by decide, 'c', by decide, by decide⟩
      · exact ⟨by decide, 'é', by decide, by decide⟩
    · exact ⟨_, _, ⟨" content-LENGTH ".toList, "\t09 ".toList, by decide, by decide, rfl, rfl⟩, by decide, by decide⟩
    · intro l hl
      simp only [List.cons_append, List.nil_append, List.mem_cons, List.not_mem_nil, or_false] at hl
      rcases hl with rfl | rfl <;> exact FieldLine.isOther_of_takeWhile (by decide)
  have hjs : ∀ x ∈ [j, j], Json.parse? x.compact = some x ∧ (body x).length < 2 ^ 64 := by
    intro x hx
    simp only [List.mem_cons, List.not_mem_nil, or_false, or_self] at hx
    rw [hx]
    exact hj
  have hms : ∀ m ∈ [(w, j'), (written j, j)], m.1.Carries m.2 := by
    intro m hm
    simp only [List.mem_cons, List.not_mem_nil, or_false] at hm
    rcases hm with rfl | rfl
    · exact hw
    · exact carries_written hj.1 hj.2
  obtain ⟨hhere, hany, hone⟩ := streams_read_back
  have hfirst := hhere _ hjs
  have hsecond := hany _ hms
  simp only [List.flatMap_cons, List.flatMap_nil, List.append_nil, List.map_cons, List.map_nil] at hfirst hsecond
  exact ⟨hfirst, hsecond, hone w j' hw false [0x43]⟩

end EmbeddedMarkup.Frame
