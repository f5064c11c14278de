/-
Regions by bytes. Here `scan` works on offsets: it looks for the next call in the slice behind what it has
scanned, reads the opener as the byte in front of the offset where the call begins, and walks over the
bytes behind it up to the closer. Delimiters have a byte each that occurs in no other character, so the
walk `closing` over the bytes ends where the walk `close?` over the characters does; therefore every slice
of the scanner begins at a character boundary, and it finds the regions of the text.
-/
import EmbeddedMarkup.Proofs.Region.Scan
import EmbeddedMarkup.Proofs.Slicing.Basic
import EmbeddedMarkup.Proofs.Text.Codecs

namespace EmbeddedMarkup.Slicing

/-! ## The scanner -/

/-- The byte of a character that has only one. -/
def byteOf (c : Char) : UInt8 :=
  UInt8.ofNat c.toNat

/-- The byte that closes what a byte opens. -/
def closerOf (opener : UInt8) : UInt8 :=
  if opener = byteOf '{' then byteOf '}' else if opener = byteOf '(' then byteOf ')' else byteOf ']'

/-- Walks over bytes to the closer with which no opener is open any more: the number of bytes in front of
it, `depth` being the number of openers that are open besides the first and `walked` the number of bytes
walked over before. -/
def closing (opener closer : UInt8) (depth walked : Nat) : List UInt8 → Option Nat
  | [] => none
  | b :: bytes =>
    if b = closer then
      match depth with
      | 0 => some walked
      | depth + 1 => closing opener closer depth (walked + 1) bytes
    else if b = opener then
      closing opener closer (depth + 1) (walked + 1) bytes
    else
      closing opener closer depth (walked + 1) bytes

/-- The number of bytes up to the first call of a text, with its opener. -/
def callEnd? : Text → Option Nat
  | [] => none
  | c :: t =>
    match Region.trigger? (c :: t) with
    | some g => some g.length
    | none => (callEnd? t).map (c.utf8Size + ·)

/-- The scanner goes on from the first call that it finds. -/
theorem exists_call {t : Text} {n : Nat} (h : callEnd? t = some n) :
    ∃ (front : Text) (d : Delimiter) (rest : Text), t = front ++ d.opener :: rest ∧
      n = Text.byteLength (front ++ [d.opener]) ∧ ∀ pos, Region.scanFrom pos t =
        match Region.close? d 0 0 rest with
        | none => Region.scanFrom (pos + n) rest
        | some (m, later) => ⟨pos + n, pos + n + m⟩ :: Region.scanFrom (pos + n + m + 1) later := by
  induction t generalizing n with
  | nil => cases h
  | cons c t ih =>
    rw [callEnd?] at h
    split at h
    · rename_i g hg
      cases h
      obtain ⟨blanks, ht, -, hl⟩ := Region.trigger?_eq_some_iff.1 hg
      refine ⟨Region.callName ++ blanks, g.delimiter, g.rest, ht, hl, fun pos => ?_⟩
      split
      · rename_i hc
        exact Region.scanFrom_of_unbalanced hg hc
      · rename_i hc
        exact Region.scanFrom_of_balanced hg hc
    · rename_i hg
      obtain ⟨n, hn, rfl⟩ := Option.map_eq_some_iff.1 h
      obtain ⟨front, d, rest, rfl, rfl, hscan⟩ := ih hn
      refine ⟨c :: front, d, rest, rfl, rfl, fun pos => ?_⟩
      rw [Region.scanFrom_of_none hg, hscan, Nat.add_assoc]

theorem scanFrom_of_callEnd?_none {t : Text} (h : callEnd? t = none) (pos : Nat) : Region.scanFrom pos t = [] := by
  induction t generalizing pos with
  | nil => rw [Region.scanFrom]
  | cons c t ih =>
    rw [callEnd?] at h
    split at h
    · cases h
    · rename_i hg
      rw [Region.scanFrom_of_none hg]
      exact ih (Option.map_eq_none_iff.1 h) _

theorem callEnd?_pos {t : Text} {n : Nat} (h : callEnd? t = some n) : 0 < n := by
  obtain ⟨front, d, rest, -, rfl, -⟩ := exists_call h
  rw [Text.byteLength_append, Text.byteLength_cons, d.utf8Size_opener]
  omega

/-- The byte in front of offset `o`. -/
def byteBefore (bytes : List UInt8) (o : Nat) : Slicing UInt8 := do
  entry bytes (← distance 1 o)

/-- The regions of a text from offset `pos` on. -/
def scanFrom (t : Text) (pos : Nat) : Slicing (List Region) := do
  let rest ← slice t pos (Text.byteLength t)
  match hcall : callEnd? rest with
  | none => return []
  | some n =>
    if hend : Text.byteLength t ≤ pos + n then
      return []
    else
      have : 0 < n ∧ pos + n < Text.byteLength t := ⟨callEnd?_pos hcall, Nat.lt_of_not_le hend⟩
      let opener ← byteBefore (Utf8.encode t) (pos + n)
      let bytes ← suffix (Utf8.encode t) (pos + n)
      match closing opener (closerOf opener) 0 0 bytes with
      | none => scanFrom t (pos + n)
      | some walked => return ⟨pos + n, pos + n + walked⟩ :: (← scanFrom t (pos + n + walked + 1))
termination_by Text.byteLength t - pos
decreasing_by all_goals omega

/-- The regions of a text. -/
def scan (t : Text) : Slicing (List Region) :=
  scanFrom t 0

/-! ## The walk over the bytes -/

theorem encode_delimiter (d : Delimiter) :
    String.utf8EncodeChar d.opener = [byteOf d.opener] ∧ String.utf8EncodeChar d.closer = [byteOf d.closer] := by
  cases d <;> decide

theorem byteOf_opener_ne_closer (d : Delimiter) : byteOf d.opener ≠ byteOf d.closer := by
  cases d <;> decide

theorem closerOf_opener (d : Delimiter) : closerOf (byteOf d.opener) = byteOf d.closer := by
  cases d <;> decide

/-- The byte of a delimiter occurs in no other character. -/
theorem byteOf_not_mem {c d : Char} (hd : d.toNat < 0x80) (h : c ≠ d) : byteOf d ∉ String.utf8EncodeChar c := by
  have hbyte : (byteOf d).toNat = d.toNat := Utf8.toNat_ofNat (by omega)
  intro hmem
  have := Utf8.toNat_of_mem_encodeChar (by rw [hbyte]; exact hd) hmem
  exact h (Char.toNat_inj.1 (by rw [this, hbyte]))

/-- `closing` passes over bytes that are neither opener nor closer. -/
theorem closing_append {opener closer : UInt8} {bytes : List UInt8} (hopener : opener ∉ bytes)
    (hcloser : closer ∉ bytes) (depth walked : Nat) (rest : List UInt8) :
    closing opener closer depth walked (bytes ++ rest) = closing opener closer depth (walked + bytes.length) rest := by
  induction bytes generalizing walked with
  | nil => rfl
  | cons b bytes ih =>
    rw [List.mem_cons, not_or] at hopener hcloser
    rw [List.cons_append, closing.eq_def]
    simp only [if_neg (Ne.symm hcloser.1), if_neg (Ne.symm hopener.1)]
    rw [ih hopener.2 hcloser.2, List.length_cons, Nat.add_assoc walked, Nat.add_comm 1]

/-- `closing` over the bytes of a text ends where `close?` over its characters does. -/
theorem closing_encode (d : Delimiter) (depth walked : Nat) (t : Text) :
    closing (byteOf d.opener) (byteOf d.closer) depth walked (Utf8.encode t) =
      (Region.close? d depth walked t).map (·.1) := by
  induction t generalizing depth walked with
  | nil => rfl
  | cons c t ih =>
    rw [Utf8.encode_cons]
    unfold Region.close?
    split
    · rename_i hc
      rw [hc, (encode_delimiter d).2, List.singleton_append, closing.eq_def]
      simp only [↓reduceIte]
      cases depth with
      | zero => rfl
      | succ depth => simpa only [d.utf8Size_closer] using ih depth (walked + 1)
    · rename_i hc
      split
      · rename_i ho
        rw [ho, (encode_delimiter d).1, List.singleton_append, closing.eq_def]
        simp only [if_neg (byteOf_opener_ne_closer d), ↓reduceIte]
        simpa only [d.utf8Size_opener] using ih (depth + 1) (walked + 1)
      · rename_i ho
        have hopener : byteOf d.opener ∉ String.utf8EncodeChar c := byteOf_not_mem (by cases d <;> decide) ho
        have hcloser : byteOf d.closer ∉ String.utf8EncodeChar c := byteOf_not_mem (by cases d <;> decide) hc
        rw [closing_append hopener hcloser, String.length_utf8EncodeChar, ih]

/-! ## The regions found -/

/-- The byte in front of what stands behind an opener is that of the opener. -/
theorem returns_byteBefore (front : Text) (d : Delimiter) (rest : Text) :
    Returns (byteBefore (Utf8.encode (front ++ [d.opener] ++ rest)) (Text.byteLength (front ++ [d.opener])))
      (byteOf d.opener) := by
  have hlength : Text.byteLength (front ++ [d.opener]) = Text.byteLength front + 1 := by
    rw [Text.byteLength_append, Text.byteLength_cons, d.utf8Size_opener, Text.byteLength_nil]
  rw [hlength]
  refine (returns_distance (Nat.le_add_left _ _)).bind (returns_entry ?_)
  rw [Nat.add_sub_cancel, ← Utf8.length_encode, List.append_assoc, Utf8.encode_append, List.singleton_append,
    Utf8.encode_cons, (encode_delimiter d).1, List.getElem?_append_right (Nat.le_refl _), Nat.sub_self]
  rfl

theorem returns_bytes (a b : Text) : Returns (suffix (Utf8.encode (a ++ b)) (Text.byteLength a)) (Utf8.encode b) := by
  rw [Utf8.encode_append, ← Utf8.length_encode]
  have hle : (Utf8.encode a).length ≤ (Utf8.encode a ++ Utf8.encode b).length := by
    rw [List.length_append]; omega
  have h := returns_suffix hle
  rwa [List.drop_left] at h

/-- `scanFrom` at a character boundary finds the regions behind it. -/
theorem returns_scanFrom (a rest : Text) :
    Returns (scanFrom (a ++ rest) (Text.byteLength a)) (Region.scanFrom (Text.byteLength a) rest) := by
  induction hsize : rest.length using Nat.strong_induction_on generalizing a rest with
  | _ size ih =>
    rw [scanFrom]
    have hslice := returns_slice a rest []
    rw [List.append_nil] at hslice
    refine hslice.bind ?_
    split
    · rename_i hnone
      rw [scanFrom_of_callEnd?_none hnone]
      exact returns_pure []
    · rename_i n hsome
      obtain ⟨front, d, rest, rfl, rfl, hscan⟩ := exists_call hsome
      -- from here on the text is cut behind the opener
      have htext : a ++ (front ++ d.opener :: rest) = a ++ front ++ [d.opener] ++ rest := by simp
      dsimp only
      rw [hscan, htext, ← Text.byteLength_append, ← List.append_assoc]
      have hlt : rest.length < size := by
        rw [← hsize, List.length_append, List.length_cons]
        omega
      split
      · rename_i hend
        rw [Text.byteLength_append _ rest] at hend
        cases rest with
        | nil =>
          rw [Region.close?, Region.scanFrom]
          exact returns_pure []
        | cons c rest =>
          have := Text.byteLength_cons_pos c rest
          omega
      · refine (returns_byteBefore (a ++ front) d rest).bind ((returns_bytes _ rest).bind ?_)
        rw [closerOf_opener, closing_encode]
        cases hclose : Region.close? d 0 0 rest with
        | none => exact ih _ hlt _ rest rfl
        | some closed =>
          obtain ⟨m, later⟩ := closed
          obtain ⟨inner, rfl, rfl⟩ := Region.close?_eq_some hclose
          have hlater : later.length < size := by
            rw [List.length_append, List.length_cons] at hlt
            omega
          have hbehind := ih _ hlater (a ++ front ++ [d.opener] ++ inner ++ [d.closer]) later rfl
          have htext : a ++ front ++ [d.opener] ++ inner ++ [d.closer] ++ later =
              a ++ front ++ [d.opener] ++ (inner ++ d.closer :: later) := by simp
          have hpos : Text.byteLength (a ++ front ++ [d.opener] ++ inner ++ [d.closer]) =
              Text.byteLength (a ++ front ++ [d.opener]) + (0 + Text.byteLength inner) + 1 := by
            rw [Text.byteLength_append, Text.byteLength_append, Text.byteLength_cons, d.utf8Size_closer,
              Text.byteLength_nil, Nat.zero_add]
          rw [htext, hpos] at hbehind
          exact hbehind.bind (returns_pure _)

theorem returns_scan (t : Text) : Returns (scan t) (Region.scan t) :=
  returns_scanFrom [] t

end EmbeddedMarkup.Slicing
