/-
Masked texts, byte for byte. Whatever regions are given, `mask` goes through them with the end of the
last one that it kept: a region is `accepted` if, cut off at the end of the text, it lies behind that end and
cuts no character. Inside the spans that are kept every byte is the byte of the text, and outside of them
a line feed or a space; so line feeds, and with them the starts of all lines, stay where they are.
-/
import EmbeddedMarkup.Proofs.Mask
import EmbeddedMarkup.Proofs.Region.Scan
import EmbeddedMarkup.Proofs.Text.Codecs
import EmbeddedMarkup.Proofs.Text.Lines

namespace EmbeddedMarkup

/-! ## Starts of lines -/

/-- A line starts where the text does and behind every line feed. -/
theorem Line.map_start_split (start : Nat) (t : Text) :
    (split start t).map (·.start) =
      start :: ((List.range (Text.byteLength t)).filter fun o => (Utf8.encode t)[o]? = some 0x0A).map
        (start + · + 1) := by
  induction t generalizing start with
  | nil => rfl
  | cons c t ih =>
    have hlength := String.length_utf8EncodeChar c
    -- the offsets behind `c` are those of `t`, moved by the bytes of `c`
    have hbehind : ((List.range (Text.byteLength t)).map (c.utf8Size + ·)).filter
        (fun o => (Utf8.encode (c :: t))[o]? = some 0x0A) =
          ((List.range (Text.byteLength t)).filter fun o => (Utf8.encode t)[o]? = some 0x0A).map (c.utf8Size + ·) := by
      rw [List.filter_map]
      congr 1
      refine List.filter_congr fun o _ => ?_
      rw [Function.comp_apply, Utf8.encode_cons, ← hlength, List.getElem?_append_right (Nat.le_add_right _ _),
        Nat.add_sub_cancel_left]
    rw [Text.byteLength_cons, List.range_add, List.filter_append, hbehind, List.map_append, List.map_map]
    by_cases hc : c = '\n'
    · subst hc
      have hone : (List.range (Char.utf8Size '\n')).filter
          (fun o => (Utf8.encode ('\n' :: t))[o]? = some 0x0A) = [0] := rfl
      rw [split_cons_newline, List.map_cons, ih, hone, List.map_singleton, List.singleton_append]
      congr 2
      refine List.map_congr_left fun o _ => ?_
      rw [Function.comp_apply, ← Nat.add_assoc start]
      rfl
    · have hnone : (List.range c.utf8Size).filter (fun o => (Utf8.encode (c :: t))[o]? = some 0x0A) = [] := by
        refine List.filter_eq_nil_iff.2 fun o ho => ?_
        rw [List.mem_range] at ho
        rw [decide_eq_true_eq, Utf8.encode_cons, List.getElem?_append_left (by omega)]
        exact fun hb => hc (Utf8.newline_mem_encodeChar (List.mem_of_getElem? hb))
      obtain ⟨l, ls, h1, h2⟩ := split_cons_of_ne hc start t
      have hrest := ih (start + c.utf8Size)
      rw [h1, List.map_cons, List.cons.injEq] at hrest
      rw [h2, hnone, List.map_cons, hrest.2, List.map_nil, List.nil_append]
      congr 1
      refine List.map_congr_left fun o _ => ?_
      rw [Function.comp_apply, Nat.add_assoc start]

/-- Texts with their line feeds at the same offsets have the same `LineTable`. -/
theorem LineTable.starts_eq {a b : Text} (hlength : Text.byteLength a = Text.byteLength b)
    (h : ∀ o : Nat, (Utf8.encode a)[o]? = some 0x0A ↔ (Utf8.encode b)[o]? = some 0x0A) :
    (ofText a).lines.map (·.start) = (ofText b).lines.map (·.start) := by
  unfold ofText
  rw [Line.map_start_split, Line.map_start_split, hlength]
  simp only [h]

namespace Mask

/-! ## Regions that count -/

/-- The spans of a text that are kept of a list of regions, the one before having ended at `last`. A
region counts if its end, cut off at the end of the text, is not before its start, both are character
boundaries, and its start is not before `last`. -/
def accepted (t : Text) (last : Nat) : List Region → List Region
  | [] => []
  | r :: regions =>
    let span := clamp (Text.byteLength t) r
    if span.start ≤ span.stop ∧ Text.isBoundary t span.start ∧ Text.isBoundary t span.stop ∧ last ≤ span.start then
      span :: accepted t span.stop regions
    else
      accepted t last regions

theorem le_start_of_mem_accepted {t : Text} {last : Nat} {regions : List Region} {s : Region}
    (h : s ∈ accepted t last regions) : last ≤ s.start := by
  induction regions generalizing last with
  | nil => cases h
  | cons r regions ih =>
    rw [accepted] at h
    split at h
    · rename_i hspan
      rcases List.mem_cons.1 h with rfl | h
      · exact hspan.2.2.2
      · have := ih h
        omega
    · exact ih h

/-- The spans that count in the rest of a text are those that are parts of it. -/
theorem holds_iff_boundaries {front rest : Text} {s : Region} :
    (∃ m, s.Holds (Text.byteLength front) rest m) ↔
      s.start ≤ s.stop ∧ Text.isBoundary (front ++ rest) s.start ∧ Text.isBoundary (front ++ rest) s.stop ∧
        Text.byteLength front ≤ s.start := by
  constructor
  · rintro ⟨m, gap, tail, rfl, hstart, hstop⟩
    refine ⟨?_, Text.isBoundary_iff.2 ⟨front ++ gap, m ++ tail, by simp, ?_⟩,
      Text.isBoundary_iff.2 ⟨front ++ (gap ++ m), tail, by simp, ?_⟩, ?_⟩
    · rw [hstart, hstop, Text.byteLength_append]; omega
    · rw [hstart, Text.byteLength_append]
    · rw [hstop, Text.byteLength_append]
    · omega
  · rintro ⟨hle, hstart, hstop, hlast⟩
    obtain ⟨a, b, hab, ha⟩ := Text.isBoundary_iff.1 hstart
    obtain ⟨a', b', hab', ha'⟩ := Text.isBoundary_iff.1 hstop
    obtain ⟨gap, rfl, rfl⟩ :=
      Text.exists_middle Text.byteLength_append Text.byteLength_cons_pos hab (ha ▸ hlast)
    obtain ⟨m, rfl, rfl⟩ :=
      Text.exists_middle Text.byteLength_append Text.byteLength_cons_pos (hab.symm.trans hab') (by omega)
    refine ⟨m, gap, b', by simp, ?_, ?_⟩
    · rw [← ha, Text.byteLength_append]
    · rw [← ha', List.append_assoc, Text.byteLength_append]

/-! ## Bytes -/

/-- What `blank` leaves of a byte outside of all regions. -/
def blankByte (b : UInt8) : UInt8 :=
  if b = 0x0A then 0x0A else 0x20

/-- What is left of byte `b` at offset `o` if these spans are kept. -/
def maskByte (spans : List Region) (o : Nat) (b : UInt8) : UInt8 :=
  if spans.any (·.covers o) then b else blankByte b

theorem maskByte_eq_newline_iff {spans : List Region} {o : Nat} {b : UInt8} :
    maskByte spans o b = 0x0A ↔ b = 0x0A := by
  unfold maskByte blankByte
  split
  · rfl
  · split <;> simp_all

theorem maskByte_of_before {spans : List Region} {o : Nat} (h : ∀ s ∈ spans, o < s.start) :
    maskByte spans o = blankByte := by
  have hnot : ¬ spans.any (·.covers o) = true := by
    rw [List.any_eq_true]
    rintro ⟨s, hs, hcovers⟩
    have := h s hs
    simp only [Region.covers, Bool.and_eq_true, decide_eq_true_eq] at hcovers
    omega
  funext b
  exact if_neg hnot

theorem maskByte_of_covers {s : Region} {spans : List Region} {o : Nat} (h : s.covers o = true) :
    maskByte (s :: spans) o = id := by
  funext b
  exact if_pos (by rw [List.any_cons, h, Bool.true_or])

theorem maskByte_of_behind {s : Region} {spans : List Region} {o : Nat} (h : s.stop ≤ o) :
    maskByte (s :: spans) o = maskByte spans o := by
  have hnot : s.covers o = false := by
    simp only [Region.covers, Bool.and_eq_false_iff, decide_eq_false_iff_not]
    omega
  funext b
  rw [maskByte, List.any_cons, hnot, Bool.false_or, ← maskByte]

theorem encode_blank (t : Text) : Utf8.encode (blank t) = (Utf8.encode t).map blankByte := by
  induction t with
  | nil => rfl
  | cons c t ih =>
    rw [blank, Utf8.encode_append, ih, Utf8.encode_cons, List.map_append]
    congr 1
    split
    · rename_i hc
      rw [hc]
      rfl
    · rename_i hc
      have hspaces : Utf8.encode (List.replicate c.utf8Size ' ') = List.replicate c.utf8Size 0x20 :=
        List.flatMap_replicate.trans List.flatten_replicate_singleton
      have hmap : (String.utf8EncodeChar c).map blankByte = List.replicate c.utf8Size 0x20 := by
        rw [← String.length_utf8EncodeChar, List.map_eq_replicate_iff]
        intro b hb
        refine if_neg ?_
        rintro rfl
        exact hc (Utf8.newline_mem_encodeChar hb)
      rw [hspaces, hmap]

/-- What becomes of two parts byte by byte becomes of the whole. -/
theorem getElem?_encode_append {a a' b b' : Text} {f : Nat → UInt8 → UInt8}
    (hlength : Text.byteLength a' = Text.byteLength a)
    (ha : ∀ o : Nat, (Utf8.encode a')[o]? = (Utf8.encode a)[o]?.map (f o))
    (hb : ∀ o : Nat, (Utf8.encode b')[o]? = (Utf8.encode b)[o]?.map (f (Text.byteLength a + o))) (o : Nat) :
    (Utf8.encode (a' ++ b'))[o]? = (Utf8.encode (a ++ b))[o]?.map (f o) := by
  rw [← Utf8.length_encode, ← Utf8.length_encode] at hlength
  rw [Utf8.encode_append, Utf8.encode_append]
  rcases Nat.lt_or_ge o (Utf8.encode a).length with ho | ho
  · rw [List.getElem?_append_left (hlength ▸ ho), List.getElem?_append_left ho, ha]
  · rw [List.getElem?_append_right (hlength ▸ ho), List.getElem?_append_right ho, hlength, hb, ← Utf8.length_encode,
      Nat.add_sub_cancel' ho]

theorem map_encode_congr {t : Text} {f : Nat → UInt8 → UInt8} {g : UInt8 → UInt8}
    (h : ∀ o, o < Text.byteLength t → f o = g) (o : Nat) :
    (Utf8.encode t)[o]?.map (f o) = (Utf8.encode t)[o]?.map g := by
  rcases Nat.lt_or_ge o (Utf8.encode t).length with ho | ho
  · rw [h o (Utf8.length_encode t ▸ ho)]
  · rw [List.getElem?_eq_none ho]
    rfl

/-- A span that is kept, between a gap that is blanked and what is masked behind it. -/
theorem getElem?_encode_span {gap inside tail masked : Text} {pos : Nat} {span : Region} {spans : List Region}
    (hstart : span.start = pos + Text.byteLength gap) (hstop : span.stop = pos + Text.byteLength (gap ++ inside))
    (hspans : ∀ s ∈ spans, span.stop ≤ s.start)
    (htail : ∀ o : Nat, (Utf8.encode masked)[o]? = (Utf8.encode tail)[o]?.map (maskByte spans (span.stop + o)))
    (o : Nat) : (Utf8.encode (blank gap ++ inside ++ masked))[o]? =
      (Utf8.encode (gap ++ inside ++ tail))[o]?.map (maskByte (span :: spans) (pos + o)) := by
  rw [Text.byteLength_append] at hstop
  have hgap : ∀ o, o < Text.byteLength gap → maskByte (span :: spans) (pos + o) = blankByte := by
    refine fun o ho => maskByte_of_before fun s hs => ?_
    rcases List.mem_cons.1 hs with rfl | hs
    · omega
    · have := hspans s hs
      omega
  have hinside : ∀ o, o < Text.byteLength inside →
      maskByte (span :: spans) (pos + (Text.byteLength gap + o)) = id := by
    refine fun o ho => maskByte_of_covers ?_
    simp only [Region.covers, Bool.and_eq_true, decide_eq_true_eq]
    omega
  rw [List.append_assoc, List.append_assoc]
  refine getElem?_encode_append (f := fun o => maskByte (span :: spans) (pos + o)) (byteLength_blank gap) ?_
    (getElem?_encode_append rfl ?_ ?_) o
  · intro o
    rw [map_encode_congr hgap, encode_blank, List.getElem?_map]
  · intro o
    rw [map_encode_congr hinside, Option.map_id, id]
  · intro o
    have ho : pos + (Text.byteLength gap + (Text.byteLength inside + o)) = span.stop + o := by omega
    rw [htail, ho, maskByte_of_behind (Nat.le_add_right _ _)]

/-- `maskFrom`, byte for byte: `maskByte` with the spans that are `accepted`. -/
theorem getElem?_encode_maskFrom (front rest : Text) (regions : List Region) (o : Nat) :
    (Utf8.encode (maskFrom (Text.byteLength (front ++ rest)) (Text.byteLength front) rest regions))[o]? =
      (Utf8.encode rest)[o]?.map
        (maskByte (accepted (front ++ rest) (Text.byteLength front) regions) (Text.byteLength front + o)) := by
  induction regions generalizing front rest o with
  | nil => rw [maskFrom, encode_blank, List.getElem?_map]; rfl
  | cons r regions ih =>
    by_cases h : ∃ m, (clamp (Text.byteLength (front ++ rest)) r).Holds (Text.byteLength front) rest m
    · have hspan := holds_iff_boundaries.1 h
      obtain ⟨inside, gap, tail, rfl, hstart, hstop⟩ := h
      have hfront : Text.byteLength (front ++ (gap ++ inside)) = (clamp _ r).stop :=
        (Text.byteLength_append ..).trans hstop.symm
      have htail := ih (front ++ (gap ++ inside)) tail
      rw [hfront, List.append_assoc] at htail
      rw [accepted, if_pos hspan, maskFrom_of_parts regions hstart hstop]
      exact getElem?_encode_span hstart hstop (fun s => le_start_of_mem_accepted) htail o
    · rw [maskFrom_of_not_holds regions h, ih, accepted, if_neg (mt holds_iff_boundaries.2 h)]

theorem getElem?_encode_mask (t : Text) (regions : List Region) (o : Nat) :
    (Utf8.encode (mask t regions))[o]? = (Utf8.encode t)[o]?.map (maskByte (accepted t 0 regions) o) := by
  have := getElem?_encode_maskFrom [] t regions o
  rwa [List.nil_append, Text.byteLength_nil, Nat.zero_add] at this

theorem newline_encode_mask_iff (t : Text) (regions : List Region) (o : Nat) :
    (Utf8.encode (mask t regions))[o]? = some 0x0A ↔ (Utf8.encode t)[o]? = some 0x0A := by
  rw [getElem?_encode_mask]
  cases (Utf8.encode t)[o]? with
  | none => simp
  | some b => rw [Option.map_some, Option.some.injEq, Option.some.injEq, maskByte_eq_newline_iff]

/-! ## The regions of a text -/

/-- Regions that are slices of the text, apart and in order are all `accepted`, as they are. -/
theorem accepted_eq_self {t : Text} {last : Nat} {regions : List Region}
    (hapart : regions.Pairwise fun r r' => r.stop ≤ r'.start)
    (hin : ∀ r ∈ regions, ∃ m, Text.slice? t r.start r.stop = some m) (hlast : ∀ r ∈ regions, last ≤ r.start) :
    accepted t last regions = regions := by
  induction regions generalizing last with
  | nil => rfl
  | cons r regions ih =>
    rw [List.pairwise_cons] at hapart
    obtain ⟨m, hm⟩ := hin r (List.mem_cons_self ..)
    obtain ⟨a, b, rfl, hstart, hstop⟩ := Text.slice?_eq_some hm
    have hclamp : clamp (Text.byteLength (a ++ m ++ b)) r = r := by
      have : r.stop ≤ Text.byteLength (a ++ m ++ b) := by rw [hstop, Text.byteLength_append (a ++ m)]; omega
      rw [clamp, Nat.min_eq_left this]
    have hle : r.start ≤ r.stop := by rw [hstart, hstop, Text.byteLength_append]; omega
    have hspan : r.start ≤ r.stop ∧ Text.isBoundary (a ++ m ++ b) r.start ∧ Text.isBoundary (a ++ m ++ b) r.stop ∧
        last ≤ r.start :=
      ⟨hle, Text.isBoundary_iff.2 ⟨a, m ++ b, by simp, hstart.symm⟩,
        Text.isBoundary_iff.2 ⟨a ++ m, b, rfl, hstop.symm⟩, hlast r (List.mem_cons_self ..)⟩
    have hrest := ih hapart.2 (fun r' hr' => hin r' (List.mem_cons_of_mem _ hr')) hapart.1
    rw [accepted, hclamp, if_pos hspan, hrest]

/-- `mask` is exact to the byte, whatever regions are given: unsorted, overlapping, backward, beyond the
end or off the character boundaries. The masked text has as many bytes as the text, and line feeds at
the same offsets, so that its lines start at the same offsets too. Every byte inside a span that is
`accepted` is that of the text, and every other byte is a line feed if the text has one there, and a space
otherwise. Of the regions that `scan` finds, all are accepted. -/
theorem masked_byte_for_byte (t : Text) (regions : List Region) :
    (Utf8.encode (mask t regions)).length = (Utf8.encode t).length ∧
    (∀ o : Nat, (Utf8.encode (mask t regions))[o]? = some 0x0A ↔ (Utf8.encode t)[o]? = some 0x0A) ∧
    (LineTable.ofText (mask t regions)).lines.map (·.start) = (LineTable.ofText t).lines.map (·.start) ∧
    (∀ o : Nat, (Utf8.encode (mask t regions))[o]? = (Utf8.encode t)[o]?.map fun b =>
      if ∃ s ∈ accepted t 0 regions, s.start ≤ o ∧ o < s.stop then b else if b = 0x0A then 0x0A else 0x20) ∧
    accepted t 0 (Region.scan t) = Region.scan t := by
  refine ⟨?_, newline_encode_mask_iff t regions,
    LineTable.starts_eq (byteLength_mask t regions) (newline_encode_mask_iff t regions), fun o => ?_, ?_⟩
  · rw [Utf8.length_encode, Utf8.length_encode, byteLength_mask]
  · rw [getElem?_encode_mask]
    congr 1
    funext b
    simp [maskByte, blankByte, Region.covers]
  · exact accepted_eq_self ((Region.scanFrom_pairwise 0 t).imp Nat.le_of_lt)
      (fun r hr => Region.exists_slice_of_mem_scan hr) fun r _ => Nat.zero_le r.start

/-- A region that cuts a character and one that goes back are skipped, and one beyond the end is cut off. -/
example : accepted ['a', 'é', '\n', 'b'] 0 [⟨2, 4⟩, ⟨1, 3⟩, ⟨0, 2⟩, ⟨4, 9⟩] = [⟨1, 3⟩, ⟨4, 5⟩] ∧
    mask ['a', 'é', '\n', 'b'] [⟨2, 4⟩, ⟨1, 3⟩, ⟨0, 2⟩, ⟨4, 9⟩] = [' ', 'é', '\n', 'b'] := by
  decide

end Mask

end EmbeddedMarkup
