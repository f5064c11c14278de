/-
Documents by slices. Every offset that is cut at, or whose position is asked for, comes from somewhere:
from a position, from `scan`, or from one of these by moving it between a region and its host. All of
these give character boundaries, for any text and any position, so none of the computations on
documents comes to a fault, although the position of an offset is a fault for every offset inside a
character.
-/
import EmbeddedMarkup.Proofs.HostDocument.Correspondence
import EmbeddedMarkup.Proofs.Slicing.Lines
import EmbeddedMarkup.Proofs.Slicing.Regions

namespace EmbeddedMarkup.Slicing

/-! ## Documents

Each computation bears the name of the function that it is with all of its checks. -/

def make (uri : Url) (t : Text) (v : Int) : Slicing HostDocument := do
  let regions ← scan t
  return ⟨uri, t, v, regions, HostDocument.documentsFrom uri t 0 regions⟩

def regionAt (d : HostDocument) (p : Position) : Slicing (Option Region) :=
  andThen ((Index.ofText d.text).offset p) fun o => return Region.at? d.regions o

/-- The first virtual document whose region contains host offset `o`, and the position inside it. -/
def documentHolding (o : Nat) : List VirtualDocument → Slicing (Option (VirtualDocument × Position))
  | [] => return none
  | doc :: docs =>
    if doc.region.contains o then do
      let inner ← distance doc.region.start o
      return some (doc, ← (Index.ofText doc.content).position inner)
    else
      documentHolding o docs

def documentAt (d : HostDocument) (p : Position) : Slicing (Option (VirtualDocument × Position)) :=
  andThen ((Index.ofText d.text).offset p) fun o => documentHolding o d.documents

def toHostOffset (doc : VirtualDocument) (o : Nat) : Slicing Nat := do
  return doc.region.start + min o (← distance doc.region.start doc.region.stop)

def toHostPosition (d : HostDocument) (doc : VirtualDocument) (p : Position) : Slicing (Option Position) :=
  andThen ((Index.ofText doc.content).offset p) fun o => do
    return some (← (Index.ofText d.text).position (← toHostOffset doc o))

def toHostRange (d : HostDocument) (doc : VirtualDocument) (r : Range) : Slicing (Option Range) :=
  andThen (toHostPosition d doc r.start) fun start =>
    andThen (toHostPosition d doc r.stop) fun stop =>
      return some ⟨start, stop⟩

/-- Masks a text from offset `last` on, which is the end of the last region that was kept. -/
def maskFrom (t : Text) (last : Nat) : List Region → Slicing Text
  | [] => return Mask.blank (← slice t last (Text.byteLength t))
  | r :: regions => do
    let stop := min r.stop (Text.byteLength t)
    if r.start < last ∨ stop < r.start ∨ ¬ t.isBoundary r.start ∨ ¬ t.isBoundary stop then
      maskFrom t last regions
    else
      let gap ← slice t last r.start
      let inside ← slice t r.start stop
      return Mask.blank gap ++ inside ++ (← maskFrom t stop regions)

def masked (d : HostDocument) : Slicing Text :=
  maskFrom d.text 0 d.regions

theorem returns_make (uri : Url) (t : Text) (v : Int) : Returns (make uri t v) (HostDocument.make uri t v) :=
  (returns_scan t).bind (returns_pure _)

/-! ## From the host to a region -/

theorem returns_regionAt (d : HostDocument) (p : Position) : Returns (regionAt d p) (d.regionAt? p) :=
  (Index.returns_offset d.text p).andThen fun _ _ => returns_pure _

/-- A cut of the host in the region of a virtual document is a cut of its content, so it has a position. -/
theorem returns_documentHolding {x y : Text} {docs : List VirtualDocument}
    (hin : ∀ doc ∈ docs, ∃ before after, doc.LiesIn (x ++ y) before after) :
    Returns (documentHolding (Text.byteLength x) docs) (do
      let (doc, inner) ← docs.findSome? fun doc => (doc.ofHostOffset? (Text.byteLength x)).map (doc, ·)
      return (doc, ← doc.lines.position? inner)) := by
  induction docs with
  | nil => exact returns_pure none
  | cons doc docs ih =>
    rw [List.forall_mem_cons] at hin
    rw [documentHolding, List.findSome?_cons, VirtualDocument.ofHostOffset?]
    split
    · rename_i ho
      obtain ⟨⟨before, after, h⟩, -⟩ := hin
      obtain ⟨a, b, rfl, hc, -⟩ := HostDocument.exists_cut_of_contains h rfl ho
      have hle : doc.region.start ≤ Text.byteLength (before ++ a) := by
        rw [h.start, Text.byteLength_append]; omega
      have hinner := HostDocument.inner_offset_cut (a := a) h
      have hposition := LineTable.position?_append a b
      rw [← hc] at hposition
      refine (returns_distance hle).bind ?_
      simp only [Option.map_some, Option.bind_eq_bind, Option.bind_some, VirtualDocument.lines, hinner, hposition]
      rw [hc]
      exact (Index.returns_position a b).bind (returns_pure _)
    · exact ih hin.2

theorem returns_documentAt (uri : Url) (t : Text) (v : Int) (p : Position) :
    Returns (documentAt (HostDocument.make uri t v) p) ((HostDocument.make uri t v).documentAt? p) := by
  refine (Index.returns_offset t p).andThen fun o ho => ?_
  obtain ⟨x, y, rfl, rfl⟩ := LineTable.exists_cut_of_offset? ho
  exact returns_documentHolding fun doc => HostDocument.exists_liesIn

/-! ## From a region to the host -/

/-- A cut of the content is a cut of the host. -/
theorem returns_toHostPosition {d : HostDocument} {doc : VirtualDocument} {before after : Text}
    (h : doc.LiesIn d.text before after) (p : Position) :
    Returns (toHostPosition d doc p) (d.toHostPosition? doc p) := by
  have hle : doc.region.start ≤ doc.region.stop := by
    rw [h.start, h.stop, Text.byteLength_append]; omega
  refine (Index.returns_offset doc.content p).andThen fun o ho => ?_
  obtain ⟨a, b, hc, rfl⟩ := LineTable.exists_cut_of_offset? ho
  have hoffset : Returns (toHostOffset doc (Text.byteLength a)) (doc.toHostOffset (Text.byteLength a)) :=
    (returns_distance hle).bind (returns_pure _)
  refine hoffset.bind ?_
  rw [HostDocument.toHostOffset_cut h hc, HostDocument.lines, HostDocument.text_cut h hc, LineTable.position?_append]
  exact (Index.returns_position _ _).bind (returns_pure _)

theorem returns_toHostRange {d : HostDocument} {doc : VirtualDocument} {before after : Text}
    (h : doc.LiesIn d.text before after) (r : Range) : Returns (toHostRange d doc r) (d.toHostRange? doc r) :=
  (returns_toHostPosition h r.start).andThen fun _ _ =>
    (returns_toHostPosition h r.stop).andThen fun _ _ => returns_pure _

/-! ## Masked texts -/

/-- `maskFrom` skips a region if its span, cut off at the end, is no part of the rest of the text, and only then. -/
theorem skipped_iff {front rest : Text} {r : Region} :
    (r.start < Text.byteLength front ∨ min r.stop (Text.byteLength (front ++ rest)) < r.start ∨
      ¬ (front ++ rest).isBoundary r.start ∨
      ¬ (front ++ rest).isBoundary (min r.stop (Text.byteLength (front ++ rest)))) ↔
    ¬ ∃ m, (Mask.clamp (Text.byteLength (front ++ rest)) r).Holds (Text.byteLength front) rest m := by
  rw [Mask.holds_iff_boundaries]
  simp only [Mask.clamp, not_and_or, Nat.not_le]
  tauto

/-- `maskFrom` cuts only at the ends of the regions that count, whatever regions are given. -/
theorem returns_maskFrom (front rest : Text) (regions : List Region) :
    Returns (maskFrom (front ++ rest) (Text.byteLength front) regions)
      (Mask.maskFrom (Text.byteLength (front ++ rest)) (Text.byteLength front) rest regions) := by
  induction regions generalizing front rest with
  | nil =>
    have hslice := returns_slice front rest []
    rw [List.append_nil] at hslice
    exact hslice.bind (returns_pure _)
  | cons r regions ih =>
    rw [maskFrom]
    by_cases h : ∃ m, (Mask.clamp (Text.byteLength (front ++ rest)) r).Holds (Text.byteLength front) rest m
    · simp only [if_neg fun hskip => skipped_iff.1 hskip h]
      obtain ⟨inside, gap, tail, rfl, hstart, hstop⟩ := h
      have hgap := returns_slice front gap (inside ++ tail)
      have hinside := returns_slice (front ++ gap) inside tail
      have htail := ih (front ++ gap ++ inside) tail
      rw [Mask.maskFrom_of_parts regions hstart hstop]
      simp only [Mask.clamp, ← Text.byteLength_append, ← List.append_assoc] at hstart hstop hgap hinside ⊢
      rw [hstart, hstop]
      exact hgap.bind (hinside.bind (htail.bind (returns_pure _)))
    · rw [Mask.maskFrom_of_not_holds regions h]
      simp only [if_pos (skipped_iff.2 h)]
      exact ih front rest

theorem returns_masked (d : HostDocument) : Returns (masked d) d.masked :=
  returns_maskFrom [] d.text d.regions

/-! ## No faults -/

/-- Nothing that is done with a document comes to a `Fault`: not its changes, whatever ranges they name, not
the search for its regions, not the look-up of a region or a virtual document at any position, not the way
of any range from one of its virtual documents to the host, and not its masking. Nothing is cut backward,
beyond the end or inside a character, and positions are asked for at character boundaries of the text only,
not beyond its end; what each of these `Returns` is what is defined without checks. The position of an
offset by itself is a fault exactly if the offset is inside a character. -/
theorem never_faults (uri : Url) (t : Text) (v : Int) (changes : List Change) :
    let d := HostDocument.make uri t v
    Returns (changeAll t changes) (Change.applyAll t changes) ∧
    Returns (scan t) (Region.scan t) ∧
    Returns (make uri t v) d ∧
    (∀ p, Returns (regionAt d p) (d.regionAt? p)) ∧
    (∀ p, Returns (documentAt d p) (d.documentAt? p)) ∧
    (∀ doc ∈ d.documents, ∀ r, Returns (toHostRange d doc r) (d.toHostRange? doc r)) ∧
    Returns (masked d) d.masked ∧
    ∀ o, (∃ fault, ((Index.ofText t).position o).run [] = .error fault) ↔
      o ≤ Text.byteLength t ∧ t.isBoundary o = false := by
  intro d
  refine ⟨returns_changeAll t changes, returns_scan t, returns_make uri t v, returns_regionAt d,
    returns_documentAt uri t v, fun doc hdoc r => ?_, returns_masked d, fun o => Index.position_fails_iff⟩
  obtain ⟨before, after, h⟩ := HostDocument.exists_liesIn hdoc
  exact returns_toHostRange (d := d) h r

/-- A position between the two units of a character, on a line with characters of two and four bytes: it
leads into the region and back without a fault, although the offsets inside the character are faults. -/
theorem never_faults_pair :
    let uri : Url := { scheme := ['f', 'i', 'l', 'e'], host := some [], path := ['/', 'a'] }
    let t : Text := ['é', 'U', 'I', '!', '{', 'a', '😀', '\n', 'b', '}', 'c']
    let d := HostDocument.make uri t 1
    let doc : VirtualDocument := ⟨(VirtualUri.region uri 0).url, ⟨6, 13⟩, ['a', '😀', '\n', 'b']⟩
    Returns (documentAt d ⟨0, 7⟩) (some (doc, ⟨0, 3⟩)) ∧
      Returns (toHostRange d doc ⟨⟨0, 2⟩, ⟨1, 9⟩⟩) (some ⟨⟨0, 8⟩, ⟨1, 1⟩⟩) ∧
      ∃ fault, ((Index.ofText t).position 8).run [] = .error fault := by
  intro uri t d doc
  obtain ⟨-, -, -, -, hat, hrange, -, hfault⟩ := never_faults uri t 1 []
  have hdocument : d.documentAt? ⟨0, 7⟩ = some (doc, ⟨0, 3⟩) := by decide +kernel
  have hhost : d.toHostRange? doc ⟨⟨0, 2⟩, ⟨1, 9⟩⟩ = some ⟨⟨0, 8⟩, ⟨1, 1⟩⟩ := by decide +kernel
  refine ⟨hdocument ▸ hat ⟨0, 7⟩, hhost ▸ hrange doc ?_ _, (hfault 8).2 (by decide)⟩
  exact (HostDocument.documentAt?_eq_some hdocument).1

end EmbeddedMarkup.Slicing
