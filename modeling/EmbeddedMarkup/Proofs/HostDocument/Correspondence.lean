/-
Places in a host document and places in its virtual documents, which `documentAt?` and `toHostPosition?`
lead to. A virtual document is the part of the host text between two cuts (`LiesIn`), so that a cut of its
content is a cut of the host, and the position of the one leads to the position of the other and back.
Regions are apart, so the way into a virtual document does not depend on the others. An edit of a virtual
document is therefore the same edit of the host.
-/
import EmbeddedMarkup.Proofs.Region.Scan
import EmbeddedMarkup.Proofs.Session.Virtual
import EmbeddedMarkup.Proofs.Text.Positions

namespace EmbeddedMarkup

/-- Whether a virtual document is the part of a text between `before` and `after`. -/
structure VirtualDocument.LiesIn (doc : VirtualDocument) (t before after : Text) : Prop where
  text : t = before ++ doc.content ++ after
  start : doc.region.start = Text.byteLength before
  stop : doc.region.stop = Text.byteLength (before ++ doc.content)

namespace HostDocument

/-! ## Where virtual documents lie -/

theorem exists_liesIn {uri : Url} {t : Text} {v : Int} {doc : VirtualDocument}
    (h : doc ∈ (make uri t v).documents) : ∃ before after, doc.LiesIn t before after := by
  obtain ⟨-, hslice, -⟩ := mem_documents_make h
  obtain ⟨before, after, ht, hs, he⟩ := Text.slice?_eq_some hslice
  exact ⟨before, after, ht, hs, he⟩

theorem documentsFrom_sublist (uri : Url) (t : Text) (n : Nat) (regions : List Region) :
    ((documentsFrom uri t n regions).map (·.region)).Sublist regions := by
  induction regions generalizing n with
  | nil => exact .slnil
  | cons r regions ih =>
    rw [documentsFrom, List.map_append]
    rw [VirtualDocument.make?_eq]
    cases Text.slice? t r.start r.stop with
    | none => exact (ih (n + 1)).cons r
    | some content => exact (ih (n + 1)).cons_cons r

/-- Virtual documents are apart in their host, as their regions are. -/
theorem documents_pairwise (uri : Url) (t : Text) (v : Int) :
    (make uri t v).documents.Pairwise fun a b => a.region.stop < b.region.start :=
  List.pairwise_map.1 ((Region.scanFrom_pairwise 0 t).sublist (documentsFrom_sublist uri t 0 _))

/-- The virtual document that `ofHostOffset?` finds at an offset is the one that holds it. -/
theorem findSome?_ofHostOffset? {docs : List VirtualDocument}
    (hp : docs.Pairwise fun a b => a.region.stop < b.region.start) {doc : VirtualDocument} (hdoc : doc ∈ docs)
    {o : Nat} (ho : doc.region.contains o = true) :
    docs.findSome? (fun doc => (doc.ofHostOffset? o).map (doc, ·)) = some (doc, o - doc.region.start) := by
  have hfound : doc.ofHostOffset? o = some (o - doc.region.start) := if_pos ho
  induction docs with
  | nil => cases hdoc
  | cons x docs ih =>
    rw [List.pairwise_cons] at hp
    rw [List.findSome?_cons]
    rcases List.mem_cons.1 hdoc with rfl | hdoc
    · rw [hfound]; rfl
    · -- `x` lies in front of the document, and so in front of the offset
      have hnot : x.ofHostOffset? o = none := by
        have := hp.1 doc hdoc
        unfold VirtualDocument.ofHostOffset?
        simp only [Region.contains, Bool.and_eq_true, decide_eq_true_eq] at ho ⊢
        rw [if_neg (by omega)]
      rw [hnot]
      exact ih hp.2 hdoc

theorem documentAt?_eq_some {d : HostDocument} {p q : Position} {doc : VirtualDocument}
    (h : d.documentAt? p = some (doc, q)) :
    doc ∈ d.documents ∧ ∃ o, d.lines.offset? p = some o ∧ doc.region.contains o = true ∧
      doc.lines.position? (o - doc.region.start) = some q := by
  have hmem := mem_of_documentAt? h
  unfold documentAt? at h
  obtain ⟨o, ho, h⟩ := Option.bind_eq_some_iff.1 h
  obtain ⟨⟨doc', inner⟩, hfind, h⟩ := Option.bind_eq_some_iff.1 h
  obtain ⟨q', hq, h⟩ := Option.bind_eq_some_iff.1 h
  cases h
  obtain ⟨x, -, hx⟩ := List.exists_of_findSome?_eq_some hfind
  obtain ⟨o', ho', hx⟩ := Option.map_eq_some_iff.1 hx
  cases hx
  unfold VirtualDocument.ofHostOffset? at ho'
  split at ho'
  · rename_i hc
    cases ho'
    exact ⟨hmem, o, ho, hc, hq⟩
  · cases ho'

/-! ## Cuts of a virtual document -/

section Cuts

variable {d : HostDocument} {doc : VirtualDocument} {t before after a b : Text}

/-- A cut of the content is a cut of the host. -/
theorem text_cut (h : doc.LiesIn t before after) (hc : doc.content = a ++ b) : t = before ++ a ++ (b ++ after) := by
  rw [h.text, hc]; simp

/-- A cut of the host inside the region, or at one of its ends, is a cut of the content. -/
theorem exists_cut_of_contains (h : doc.LiesIn t before after) {x y : Text} (ht : t = x ++ y)
    (hin : doc.region.contains (Text.byteLength x) = true) :
    ∃ a b, x = before ++ a ∧ doc.content = a ++ b ∧ y = b ++ after := by
  simp only [Region.contains, Bool.and_eq_true, decide_eq_true_eq, h.start, h.stop] at hin
  have hall : before ++ (doc.content ++ after) = x ++ y := by rw [← ht, h.text, List.append_assoc]
  obtain ⟨a, rfl, hrest⟩ := Text.exists_middle Text.byteLength_append Text.byteLength_cons_pos hall hin.1
  have hle : Text.byteLength a ≤ Text.byteLength doc.content := by
    simp only [Text.byteLength_append] at hin; omega
  obtain ⟨b, hc, rfl⟩ := Text.exists_middle Text.byteLength_append Text.byteLength_cons_pos hrest.symm hle
  exact ⟨a, b, rfl, hc, rfl⟩

theorem contains_cut (h : doc.LiesIn t before after) (hc : doc.content = a ++ b) :
    doc.region.contains (Text.byteLength (before ++ a)) = true := by
  simp only [Region.contains, Bool.and_eq_true, decide_eq_true_eq, h.start, h.stop, hc, Text.byteLength_append]
  omega

theorem toHostOffset_cut (h : doc.LiesIn t before after) (hc : doc.content = a ++ b) :
    doc.toHostOffset (Text.byteLength a) = Text.byteLength (before ++ a) := by
  unfold VirtualDocument.toHostOffset Region.length
  rw [h.start, h.stop, hc]
  simp only [Text.byteLength_append]; omega

theorem inner_offset_cut (h : doc.LiesIn t before after) :
    Text.byteLength (before ++ a) - doc.region.start = Text.byteLength a := by
  rw [h.start, Text.byteLength_append, Nat.add_sub_cancel_left]

/-- By `toHostPosition?` a position leads to the position of the same cut in the host. -/
theorem toHostPosition?_cut (h : doc.LiesIn d.text before after) (hc : doc.content = a ++ b) {q : Position}
    (hq : doc.lines.offset? q = some (Text.byteLength a)) :
    d.toHostPosition? doc q = some (Text.endPosition (before ++ a)) := by
  unfold toHostPosition? lines
  rw [hq, text_cut h hc]
  exact (congrArg _ (toHostOffset_cut h hc)).trans (LineTable.position?_append ..)

/-- A position that leads to the host stands for a cut of the content, and leads to the position of that cut. -/
theorem exists_cut_of_toHostPosition? (h : doc.LiesIn d.text before after) {q p : Position}
    (hp : d.toHostPosition? doc q = some p) :
    ∃ a b, doc.content = a ++ b ∧ doc.lines.offset? q = some (Text.byteLength a) ∧ p = Text.endPosition (before ++ a) := by
  obtain ⟨o, hq, -⟩ := Option.bind_eq_some_iff.1 hp
  obtain ⟨a, b, hc, rfl⟩ := LineTable.exists_cut_of_offset? hq
  rw [toHostPosition?_cut h hc hq, Option.some.injEq] at hp
  exact ⟨a, b, hc, hq, hp.symm⟩

/-- The host offset behind a position in the virtual document: the one there, moved by the start of
the region. -/
theorem offset?_toHostPosition? (h : doc.LiesIn d.text before after) {q p : Position}
    (hp : d.toHostPosition? doc q = some p) :
    d.lines.offset? p = (doc.lines.offset? q).map (doc.region.start + ·) := by
  obtain ⟨a, b, hc, hq, rfl⟩ := exists_cut_of_toHostPosition? h hp
  rw [hq, Option.map_some, h.start, ← Text.byteLength_append, lines, text_cut h hc, LineTable.offset?_endPosition]

/-- Only a line that the virtual document does not have leads nowhere. -/
theorem offset?_of_toHostPosition?_none (h : doc.LiesIn d.text before after) {q : Position}
    (hq : d.toHostPosition? doc q = none) : doc.lines.offset? q = none := by
  cases ho : doc.lines.offset? q with
  | none => rfl
  | some o =>
    obtain ⟨a, b, hc, rfl⟩ := LineTable.exists_cut_of_offset? ho
    rw [toHostPosition?_cut h hc ho] at hq
    cases hq

theorem toHostRange?_eq_some {r r' : Range} (h : d.toHostRange? doc r = some r') :
    d.toHostPosition? doc r.start = some r'.start ∧ d.toHostPosition? doc r.stop = some r'.stop := by
  unfold toHostRange? at h
  obtain ⟨s, hs, h⟩ := Option.bind_eq_some_iff.1 h
  obtain ⟨e, he, h⟩ := Option.bind_eq_some_iff.1 h
  cases h
  exact ⟨hs, he⟩

/-- A range covers in the host what it covers in the virtual document, as `span?` says; a backward one covers
nothing in either. -/
theorem span?_toHostRange? (h : doc.LiesIn d.text before after) {r r' : Range} (hr : d.toHostRange? doc r = some r') :
    d.lines.span? r' =
      (doc.lines.span? r).map fun s => (doc.region.start + s.1, doc.region.start + s.2) := by
  obtain ⟨hs, he⟩ := toHostRange?_eq_some hr
  unfold LineTable.span?
  rw [offset?_toHostPosition? h hs, offset?_toHostPosition? h he]
  cases doc.lines.offset? r.start with
  | none => rfl
  | some s =>
    cases doc.lines.offset? r.stop with
    | none => rfl
    | some e =>
      by_cases hle : s ≤ e
      · simp [hle]
      · simp [hle]

/-- A range that leads nowhere covers nothing. -/
theorem span?_of_toHostRange?_none (h : doc.LiesIn d.text before after) {r : Range}
    (hr : d.toHostRange? doc r = none) : doc.lines.span? r = none := by
  unfold LineTable.span?
  unfold toHostRange? at hr
  cases hs : d.toHostPosition? doc r.start with
  | none => rw [offset?_of_toHostPosition?_none h hs]; rfl
  | some s =>
    cases he : d.toHostPosition? doc r.stop with
    | none =>
      rw [offset?_of_toHostPosition?_none h he]
      cases doc.lines.offset? r.start <;> rfl
    | some e =>
      rw [hs, he] at hr
      cases hr

end Cuts

/-! ## Edits -/

/-- An edit of a virtual document is the same edit of the host. Let a range in a virtual document, of
any two positions in any order, lead to a range in the host. Then both cover the same text, and
replacing it in the host is replacing it in the content, with the text in front of the region and
behind it as they were. A range that leads nowhere is one whose replacement would leave the content
as it is. -/
theorem edit_in_host (uri : Url) (t : Text) (v : Int) (doc : VirtualDocument)
    (hdoc : doc ∈ (make uri t v).documents) (r : Range) (n : Option Nat) (new : Text) :
    ∃ before after, t = before ++ doc.content ++ after ∧ doc.region.start = Text.byteLength before ∧
      doc.region.stop = Text.byteLength (before ++ doc.content) ∧
      (∀ r', (make uri t v).toHostRange? doc r = some r' →
        (make uri t v).lines.span? r' =
          ((doc.lines.span? r).map fun s => (doc.region.start + s.1, doc.region.start + s.2)) ∧
        Change.applyAll t [⟨some r', n, new⟩] = before ++ Change.applyAll doc.content [⟨some r, n, new⟩] ++ after) ∧
      ((make uri t v).toHostRange? doc r = none →
        Change.applyAll doc.content [⟨some r, n, new⟩] = doc.content) := by
  obtain ⟨before, after, h⟩ := exists_liesIn hdoc
  have hlies : doc.LiesIn (make uri t v).text before after := h
  refine ⟨before, after, h.text, h.start, h.stop, fun r' hr => ?_, fun hr => ?_⟩
  · have hspan := span?_toHostRange? hlies hr
    refine ⟨hspan, ?_⟩
    rw [Change.applyAll_singleton, Change.applyAll_singleton]
    unfold lines VirtualDocument.lines at hspan
    rw [make_text] at hspan
    cases hs : (LineTable.ofText doc.content).span? r with
    | none =>
      rw [hs, Option.map_none] at hspan
      rw [Change.apply_of_span?_none n new hspan, Change.apply_of_span?_none n new hs, h.text]
    | some s =>
      -- the span is between two cuts of the content, which are cuts of the host behind `before`
      obtain ⟨s, e⟩ := s
      obtain ⟨a, m, b, hc, rfl, rfl⟩ := LineTable.exists_parts_of_span? hs
      have ht : t = before ++ a ++ m ++ (b ++ after) := by rw [h.text, hc]; simp
      rw [hs, Option.map_some, ht] at hspan
      rw [hc] at hs
      have hhost : (LineTable.ofText (before ++ a ++ m ++ (b ++ after))).span? r' =
          some (Text.byteLength (before ++ a), Text.byteLength (before ++ a) + Text.byteLength m) := by
        rw [hspan, h.start, Text.byteLength_append, Nat.add_assoc]
      rw [ht, hc, Change.apply_of_span? n new hhost, Change.apply_of_span? n new hs]
      simp
  · exact Change.apply_of_span?_none n new (span?_of_toHostRange?_none hlies hr)

/-- A range that begins between the two units of a character and ends on the next line: what is replaced
is the end of the line, in the region and nowhere else. -/
theorem edit_in_host_pair :
    let uri : Url := { scheme := ['f', 'i', 'l', 'e'], host := some [], path := ['/', 'a'] }
    let t : Text := ['x', ' ', 'U', 'I', '!', '{', 'a', '😀', '\n', 'b', '}', 'c']
    let doc : VirtualDocument := ⟨(VirtualUri.region uri 0).url, ⟨6, 13⟩, ['a', '😀', '\n', 'b']⟩
    (make uri t 1).toHostRange? doc ⟨⟨0, 2⟩, ⟨1, 0⟩⟩ = some ⟨⟨0, 9⟩, ⟨1, 0⟩⟩ ∧
      ∃ before after, t = before ++ doc.content ++ after ∧
        Change.applyAll t [⟨some ⟨⟨0, 9⟩, ⟨1, 0⟩⟩, none, ['-']⟩] = before ++ ['a', '😀', '-', 'b'] ++ after := by
  intro uri t doc
  have hdoc : doc ∈ (make uri t 1).documents := by
    show doc ∈ documentsFrom uri t 0 (Region.scan t)
    rw [show Region.scan t = [⟨6, 13⟩] by decide +kernel, documentsFrom, VirtualDocument.make?_eq,
      show Text.slice? t 6 13 = some ['a', '😀', '\n', 'b'] by decide +kernel]
    exact List.mem_cons_self ..
  have hrange : (make uri t 1).toHostRange? doc ⟨⟨0, 2⟩, ⟨1, 0⟩⟩ = some ⟨⟨0, 9⟩, ⟨1, 0⟩⟩ := by decide +kernel
  obtain ⟨before, after, ht, -, -, hedit, -⟩ := edit_in_host uri t 1 doc hdoc ⟨⟨0, 2⟩, ⟨1, 0⟩⟩ none ['-']
  have hcontent : Change.applyAll doc.content [⟨some ⟨⟨0, 2⟩, ⟨1, 0⟩⟩, none, ['-']⟩] = ['a', '😀', '-', 'b'] := by
    decide +kernel
  exact ⟨hrange, before, after, ht, by rw [(hedit _ hrange).2, hcontent]⟩

/-! ## Positions -/

/-- By `documentAt?` the host position of a cut of the content leads into that virtual document. -/
theorem documentAt?_cut {uri : Url} {t before after a b : Text} {v : Int} {doc : VirtualDocument}
    (hdoc : doc ∈ (make uri t v).documents) (h : doc.LiesIn t before after) (hc : doc.content = a ++ b) :
    (make uri t v).documentAt? (Text.endPosition (before ++ a)) = some (doc, Text.endPosition a) := by
  have hhost : (make uri t v).lines.offset? (Text.endPosition (before ++ a)) =
      some (Text.byteLength (before ++ a)) := by
    rw [lines, make_text, text_cut h hc, LineTable.offset?_endPosition]
  have hinner : doc.lines.position? (Text.byteLength (before ++ a) - doc.region.start) =
      some (Text.endPosition a) := by
    rw [inner_offset_cut h, VirtualDocument.lines, hc, LineTable.position?_append]
  unfold documentAt?
  rw [hhost]
  simp only [Option.bind_eq_bind, Option.bind_some]
  rw [findSome?_ofHostOffset? (documents_pairwise uri t v) hdoc (contains_cut h hc)]
  simp only [Option.bind_some, hinner]
  rfl

/-- Host positions and positions in virtual documents correspond. From a host position that `documentAt?`
finds in a virtual document, whatever its column, the way there and back by `toHostPosition?` leads to the
position of the character boundary that it stands for, and so back to itself if it is exact. The way from an
exact position of the content of any virtual document to the host and back leads to the same position of the
same document. -/
theorem positions_correspond (uri : Url) (t : Text) (v : Int) :
    let d := make uri t v
    (∀ p doc q, d.documentAt? p = some (doc, q) → doc ∈ d.documents ∧ doc.content.IsExact q ∧
      ∃ o p', d.lines.offset? p = some o ∧ d.lines.position? o = some p' ∧ d.toHostPosition? doc q = some p' ∧
        (t.IsExact p → p' = p)) ∧
    ∀ doc ∈ d.documents, ∀ q, doc.content.IsExact q →
      ∃ p, t.IsExact p ∧ d.toHostPosition? doc q = some p ∧ d.documentAt? p = some (doc, q) := by
  intro d
  refine ⟨fun p doc q hat => ?_, fun doc hdoc q hq => ?_⟩
  · obtain ⟨hdoc, o, ho, hin, hq⟩ := documentAt?_eq_some hat
    obtain ⟨before, after, h⟩ := exists_liesIn hdoc
    obtain ⟨x, y, ht, rfl⟩ := LineTable.exists_cut_of_offset? ho
    obtain ⟨a, b, rfl, hc, rfl⟩ := exists_cut_of_contains h ht hin
    rw [inner_offset_cut h, VirtualDocument.lines, hc, LineTable.position?_append, Option.some.injEq] at hq
    have hoff : doc.lines.offset? q = some (Text.byteLength a) := by
      rw [← hq, VirtualDocument.lines, hc, LineTable.offset?_endPosition]
    refine ⟨hdoc, ⟨a, b, hc, hq.symm⟩, _, Text.endPosition (before ++ a), ho, ?_, toHostPosition?_cut h hc hoff, ?_⟩
    · rw [lines, ht, LineTable.position?_append]
    · -- the offset of an exact position is that of its own cut, so it is the same cut
      rintro ⟨x, y, hx, rfl⟩
      rw [lines, show d.text = x ++ y from hx, LineTable.offset?_endPosition, Option.some.injEq] at ho
      rw [(Text.cut_unique (hx.symm.trans ht) ho).1]
  · obtain ⟨a, b, hc, rfl⟩ := hq
    obtain ⟨before, after, h⟩ := exists_liesIn hdoc
    have hoff : doc.lines.offset? (Text.endPosition a) = some (Text.byteLength a) := by
      rw [VirtualDocument.lines, hc, LineTable.offset?_endPosition]
    exact ⟨_, ⟨_, _, text_cut h hc, rfl⟩, toHostPosition?_cut h hc hoff, documentAt?_cut hdoc h hc⟩

/-- Behind a character of two units, in a region that begins in the middle of a line; and between the two units,
from where the way back leads behind the character. -/
theorem positions_correspond_pair :
    let uri : Url := { scheme := ['f', 'i', 'l', 'e'], host := some [], path := ['/', 'a'] }
    let d := make uri ['x', '\n', 'U', 'I', '!', '(', '😀', 'b', ')'] 1
    ∃ doc ∈ d.documents, doc.content = ['😀', 'b'] ∧
      d.documentAt? ⟨1, 6⟩ = some (doc, ⟨0, 2⟩) ∧ d.documentAt? ⟨1, 5⟩ = some (doc, ⟨0, 2⟩) ∧
      d.toHostPosition? doc ⟨0, 2⟩ = some ⟨1, 6⟩ ∧
      ∃ p, d.toHostPosition? doc ⟨0, 3⟩ = some p ∧ d.documentAt? p = some (doc, ⟨0, 3⟩) := by
  intro uri d
  obtain ⟨hback, hthere⟩ := positions_correspond uri ['x', '\n', 'U', 'I', '!', '(', '😀', 'b', ')'] 1
  have hfound : (d.documentAt? ⟨1, 6⟩).map (fun found => (found.2, found.1.content)) = some (⟨0, 2⟩, ['😀', 'b']) := by
    decide +kernel
  obtain ⟨⟨doc, q⟩, hat, heq⟩ := Option.map_eq_some_iff.1 hfound
  obtain ⟨rfl, hcontent⟩ := Prod.mk.inj heq
  have hinside : d.documentAt? ⟨1, 5⟩ = d.documentAt? ⟨1, 6⟩ := by decide +kernel
  obtain ⟨hdoc, -, o, p', -, -, hhost, hexact⟩ := hback ⟨1, 6⟩ doc ⟨0, 2⟩ hat
  have hp' : p' = ⟨1, 6⟩ := hexact ⟨['x', '\n', 'U', 'I', '!', '(', '😀'], ['b', ')'], rfl, by decide +kernel⟩
  obtain ⟨p, -, htohost, hthere⟩ := hthere doc hdoc ⟨0, 3⟩ ⟨['😀', 'b'], [], by rw [hcontent, List.append_nil], by decide +kernel⟩
  exact ⟨doc, hdoc, hcontent, hat, hinside.trans hat, hp' ▸ hhost, p, htohost, hthere⟩

end HostDocument

end EmbeddedMarkup
