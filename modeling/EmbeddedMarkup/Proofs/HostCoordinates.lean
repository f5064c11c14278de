/-
Answers in host coordinates, as the functions `toHost` and `toHost?` give them. A range that is told in
the host is the one that `toHostRange?` gives it, with exact ends inside of the region that the question
was about. What holds several ranges is told with all of them or not at all; what is told stands in the
order in which it came and is otherwise as it was. The one range that may be told as it came is the origin
of a link into another document: such a link passes through as a whole, although its origin lies in the
virtual document.
-/
import EmbeddedMarkup.HostCoordinates
import EmbeddedMarkup.Proofs.HostDocument.Correspondence
import Mathlib.Data.List.Forall2

namespace EmbeddedMarkup

/-! ## Lists of answers -/

section Lists

variable {α β : Type} {f : α → Option β}

theorem forall₂_of_mapM : ∀ {xs : List α} {ys : List β}, xs.mapM f = some ys →
    List.Forall₂ (fun x y => f x = some y) xs ys
  | [], ys, h => by
    cases h; exact .nil
  | x :: xs, ys, h => by
    rw [List.mapM_cons] at h
    obtain ⟨y, hy, h⟩ := Option.bind_eq_some_iff.1 h
    obtain ⟨ys, hys, h⟩ := Option.bind_eq_some_iff.1 h
    cases h
    exact .cons hy (forall₂_of_mapM hys)

theorem isSome_mapM_iff {xs : List α} : (xs.mapM f).isSome = true ↔ ∀ x ∈ xs, (f x).isSome = true := by
  induction xs with
  | nil => simp
  | cons x xs ih =>
    rw [List.mapM_cons, List.forall_mem_cons, ← ih]
    cases f x with
    | none => simp
    | some y => cases xs.mapM f <;> simp

/-- What is made of a list piece by piece stands in the order of the pieces that it is made of. -/
theorem forall₂_filterMap_iff {p : α → Bool} (hp : ∀ x, p x = (f x).isSome) {R : α → β → Prop} {xs : List α} :
    List.Forall₂ R (xs.filter p) (xs.filterMap f) ↔ ∀ x ∈ xs, ∀ y, f x = some y → R x y := by
  induction xs with
  | nil => simp
  | cons x xs ih =>
    rw [List.forall_mem_cons, ← ih, List.filter_cons, List.filterMap_cons, hp x]
    cases f x with
    | none => simp
    | some y => simp

end Lists

/-! ## Answers and their ranges -/

/-- Whether a position of a text is exact and has an offset in a region or at one of its ends. -/
def Position.InRegion (p : Position) (t : Text) (r : Region) : Prop :=
  t.IsExact p ∧ ∃ o, (LineTable.ofText t).offset? p = some o ∧ r.contains o = true

/-- Whether `r'` is where the range `r` of a virtual document lies in the host: what `toHostRange?` gives for
it, with both ends inside of the region. -/
structure HostDocument.Moves (d : HostDocument) (doc : VirtualDocument) (r r' : Range) : Prop where
  range : d.toHostRange? doc r = some r'
  start : r'.start.InRegion d.text doc.region
  stop : r'.stop.InRegion d.text doc.region

/-- An edit with its range left open: what telling it in the host does not change. -/
def TextEdit.bare (e : TextEdit) : TextEdit :=
  { e with range := default }

namespace CompletionEdit

def ranges : CompletionEdit → List Range
  | replace e => [e.range]
  | insertOrReplace _ i r => [i, r]

def bare : CompletionEdit → CompletionEdit
  | replace e => replace e.bare
  | insertOrReplace newText _ _ => insertOrReplace newText default default

end CompletionEdit

namespace CompletionItem

/-- The ranges of a proposal: those of its edit, and those of its further edits. -/
def ranges (c : CompletionItem) : List Range :=
  (c.edit.map CompletionEdit.ranges).getD [] ++ (c.additionalEdits.getD []).map (·.range)

def bare (c : CompletionItem) : CompletionItem :=
  { c with
    edit := c.edit.map CompletionEdit.bare
    additionalEdits := c.additionalEdits.map (·.map TextEdit.bare) }

end CompletionItem

namespace Completion

def proposals : Completion → List CompletionItem
  | items is => is
  | list _ is => is

def isIncomplete? : Completion → Option Bool
  | items _ => none
  | list isIncomplete _ => some isIncomplete

end Completion

section Told

variable (d : HostDocument) (doc : VirtualDocument)

/-- Whether the host has a place for a range, that is, whether `toHostRange?` gives one. -/
def HostDocument.places (r : Range) : Bool :=
  (d.toHostRange? doc r).isSome

def CompletionItem.isTold (c : CompletionItem) : Bool :=
  c.ranges.all (d.places doc)

/-- Whether a location is told: it is in another document, or the host has a place for it. -/
def Location.isTold (l : Location) : Bool :=
  l.uri ≠ doc.uri || d.places doc l.range

/-- Whether a link is told: it leads into another document, or the host has a place for its target. -/
def LocationLink.isTold (l : LocationLink) : Bool :=
  l.targetUri ≠ doc.uri || (d.places doc l.targetRange && d.places doc l.targetSelection)

/-- What `Location.toHost?` makes of a location that is told. -/
def Location.MovesTo (l l' : Location) : Prop :=
  (l.uri ≠ doc.uri → l' = l) ∧ (l.uri = doc.uri → l'.uri = d.uri ∧ d.Moves doc l.range l'.range)

/-- What `LocationLink.toHost?` makes of a link that is told. -/
def LocationLink.MovesTo (l l' : LocationLink) : Prop :=
  (l.targetUri ≠ doc.uri → l' = l) ∧
    (l.targetUri = doc.uri → l'.targetUri = d.uri ∧ d.Moves doc l.targetRange l'.targetRange ∧
      d.Moves doc l.targetSelection l'.targetSelection)

/-- Whether the origin of a link that is told is absent, or the one that the host gives for the origin
of the link it was. -/
def LocationLink.OriginMoves (l l' : LocationLink) : Prop :=
  l'.origin = none ∨ ∃ r r', l.origin = some r ∧ d.toHostRange? doc r = some r' ∧ l'.origin = some r'

/-- Whether a link leads into another document from an origin that the host gives another place, or none. -/
def LocationLink.Leaks (l : LocationLink) : Prop :=
  l.targetUri ≠ doc.uri ∧ ∃ r, l.origin = some r ∧ d.toHostRange? doc r ≠ some r

end Told

/-! ## Single answers -/

section Pieces

variable {d : HostDocument} {doc : VirtualDocument}

theorem Hover.range_toHost (h : Hover) : (h.toHost d doc).range = h.range.bind (d.toHostRange? doc) := rfl

theorem TextEdit.toHost?_eq (e : TextEdit) :
    e.toHost? d doc = (d.toHostRange? doc e.range).map fun range => { e with range } := by
  unfold TextEdit.toHost?
  cases d.toHostRange? doc e.range <;> rfl

theorem TextEdit.moves_of_mapM {es es' : List TextEdit} (h : es.mapM (TextEdit.toHost? d doc) = some es') :
    List.Forall₂ (fun r r' => d.toHostRange? doc r = some r') (es.map (·.range)) (es'.map (·.range)) ∧
      es'.map TextEdit.bare = es.map TextEdit.bare := by
  have hrel := forall₂_of_mapM h
  clear h
  induction hrel with
  | nil => exact ⟨.nil, rfl⟩
  | @cons e e' es es' he _ ih =>
    rw [TextEdit.toHost?_eq] at he
    obtain ⟨r, hr, rfl⟩ := Option.map_eq_some_iff.1 he
    refine ⟨.cons hr ih.1, ?_⟩
    rw [List.map_cons, List.map_cons, ih.2]
    rfl

theorem TextEdit.isSome_mapM_toHost? (es : List TextEdit) :
    (es.mapM (TextEdit.toHost? d doc)).isSome = (es.map (·.range)).all (d.places doc) := by
  rw [Bool.eq_iff_iff, isSome_mapM_iff, List.all_eq_true]
  simp [TextEdit.toHost?_eq, HostDocument.places]

theorem CompletionEdit.moves_of_toHost? {e e' : CompletionEdit} (h : e.toHost? d doc = some e') :
    List.Forall₂ (fun r r' => d.toHostRange? doc r = some r') e.ranges e'.ranges ∧ e'.bare = e.bare := by
  cases e with
  | replace e =>
    obtain ⟨e', he, rfl⟩ := Option.map_eq_some_iff.1 h
    rw [TextEdit.toHost?_eq] at he
    obtain ⟨r, hr, rfl⟩ := Option.map_eq_some_iff.1 he
    exact ⟨.cons hr .nil, rfl⟩
  | insertOrReplace newText i r =>
    obtain ⟨i', hi, h⟩ := Option.bind_eq_some_iff.1 h
    obtain ⟨r', hr, h⟩ := Option.bind_eq_some_iff.1 h
    cases h
    exact ⟨.cons hi (.cons hr .nil), rfl⟩

theorem CompletionEdit.isSome_toHost? (e : CompletionEdit) :
    (e.toHost? d doc).isSome = e.ranges.all (d.places doc) := by
  cases e with
  | replace e => simp [CompletionEdit.toHost?, CompletionEdit.ranges, TextEdit.toHost?_eq, HostDocument.places]
  | insertOrReplace newText i r =>
    simp only [CompletionEdit.toHost?, CompletionEdit.ranges, HostDocument.places, List.all_cons, List.all_nil]
    cases d.toHostRange? doc i <;> cases d.toHostRange? doc r <;> rfl

/-- A proposal is told by telling its `edit` and its `additionalEdits`. -/
theorem CompletionItem.toHost?_eq (c : CompletionItem) :
    c.toHost? d doc =
      (c.edit.mapM (CompletionEdit.toHost? d doc)).bind fun edit =>
        (c.additionalEdits.mapM (List.mapM (TextEdit.toHost? d doc))).map fun additionalEdits =>
          { c with edit, additionalEdits } := by
  obtain ⟨label, edit, additionalEdits, details⟩ := c
  cases edit with
  | none =>
    cases additionalEdits with
    | none => rfl
    | some es =>
      simp only [CompletionItem.toHost?, Option.mapM_some, Option.mapM_none]
      cases es.mapM (TextEdit.toHost? d doc) <;> rfl
  | some e =>
    simp only [CompletionItem.toHost?, Option.mapM_some]
    cases e.toHost? d doc with
    | none => rfl
    | some e' =>
      cases additionalEdits with
      | none => rfl
      | some es =>
        simp only [Option.mapM_some]
        cases es.mapM (TextEdit.toHost? d doc) <;> rfl

theorem CompletionItem.moves_of_toHost? {c c' : CompletionItem} (h : c.toHost? d doc = some c') :
    List.Forall₂ (fun r r' => d.toHostRange? doc r = some r') c.ranges c'.ranges ∧ c'.bare = c.bare := by
  rw [CompletionItem.toHost?_eq] at h
  obtain ⟨edit', hedit, h⟩ := Option.bind_eq_some_iff.1 h
  obtain ⟨more', hmore, rfl⟩ := Option.map_eq_some_iff.1 h
  obtain ⟨label, edit, more, details⟩ := c
  have h1 : List.Forall₂ (fun r r' => d.toHostRange? doc r = some r') ((edit.map CompletionEdit.ranges).getD [])
      ((edit'.map CompletionEdit.ranges).getD []) ∧ edit'.map CompletionEdit.bare = edit.map CompletionEdit.bare := by
    cases edit with
    | none => cases hedit; exact ⟨.nil, rfl⟩
    | some e =>
      obtain ⟨e', he, rfl⟩ := Option.map_eq_some_iff.1 hedit
      obtain ⟨hr, hb⟩ := CompletionEdit.moves_of_toHost? he
      exact ⟨hr, congrArg some hb⟩
  have h2 : List.Forall₂ (fun r r' => d.toHostRange? doc r = some r') ((more.getD []).map (·.range))
      ((more'.getD []).map (·.range)) ∧ more'.map (·.map TextEdit.bare) = more.map (·.map TextEdit.bare) := by
    cases more with
    | none => cases hmore; exact ⟨.nil, rfl⟩
    | some es =>
      obtain ⟨es', hes, rfl⟩ := Option.map_eq_some_iff.1 hmore
      obtain ⟨hr, hb⟩ := TextEdit.moves_of_mapM hes
      exact ⟨hr, congrArg some hb⟩
  refine ⟨List.rel_append h1.1 h2.1, ?_⟩
  unfold CompletionItem.bare
  rw [h1.2, h2.2]

theorem CompletionItem.isSome_toHost? (c : CompletionItem) : (c.toHost? d doc).isSome = c.isTold d doc := by
  obtain ⟨label, edit, more, details⟩ := c
  have h1 : (edit.mapM (CompletionEdit.toHost? d doc)).isSome =
      ((edit.map CompletionEdit.ranges).getD []).all (d.places doc) := by
    cases edit with
    | none => rfl
    | some e => exact (Option.isSome_map ..).trans e.isSome_toHost?
  have h2 : (more.mapM (List.mapM (TextEdit.toHost? d doc))).isSome =
      ((more.getD []).map (·.range)).all (d.places doc) := by
    cases more with
    | none => rfl
    | some es => exact (Option.isSome_map ..).trans (TextEdit.isSome_mapM_toHost? es)
  rw [CompletionItem.toHost?_eq, Option.isSome_bind]
  unfold CompletionItem.isTold CompletionItem.ranges
  rw [List.all_append, ← h1, ← h2]
  cases edit.mapM (CompletionEdit.toHost? d doc) <;> simp

theorem LinkedRanges.toHost?_eq (l : LinkedRanges) :
    l.toHost? d doc = (l.ranges.mapM (d.toHostRange? doc)).map fun ranges => { l with ranges } := by
  unfold LinkedRanges.toHost?
  cases l.ranges.mapM (d.toHostRange? doc) <;> rfl

theorem Location.toHost?_of_ne {l : Location} (h : l.uri ≠ doc.uri) : l.toHost? d doc = some l :=
  if_pos h

theorem Location.toHost?_of_eq {l : Location} (h : l.uri = doc.uri) :
    l.toHost? d doc = (d.toHostRange? doc l.range).map fun range => ⟨d.uri, range⟩ :=
  if_neg (not_not.2 h)

theorem Location.isSome_toHost? (l : Location) : (l.toHost? d doc).isSome = l.isTold d doc := by
  by_cases h : l.uri = doc.uri
  · simp [toHost?_of_eq h, isTold, h, HostDocument.places]
  · simp [toHost?_of_ne h, isTold, h]

theorem LocationLink.toHost?_of_ne {l : LocationLink} (h : l.targetUri ≠ doc.uri) : l.toHost? d doc = some l :=
  if_pos h

theorem LocationLink.toHost?_of_eq {l : LocationLink} (h : l.targetUri = doc.uri) :
    l.toHost? d doc =
      (d.toHostRange? doc l.targetRange).bind fun targetRange =>
        (d.toHostRange? doc l.targetSelection).map fun targetSelection =>
          ⟨l.origin.bind (d.toHostRange? doc), d.uri, targetRange, targetSelection⟩ := by
  unfold LocationLink.toHost?
  rw [if_neg (not_not.2 h)]
  cases d.toHostRange? doc l.targetRange with
  | none => rfl
  | some targetRange => cases d.toHostRange? doc l.targetSelection <;> rfl

theorem LocationLink.isSome_toHost? (l : LocationLink) : (l.toHost? d doc).isSome = l.isTold d doc := by
  by_cases h : l.targetUri = doc.uri
  · rw [toHost?_of_eq h, isTold, HostDocument.places, HostDocument.places, Option.isSome_bind]
    cases d.toHostRange? doc l.targetRange <;> simp [h]
  · simp [toHost?_of_ne h, isTold, h]

theorem Completion.proposals_toHost (c : Completion) :
    (c.toHost d doc).proposals = c.proposals.filterMap (CompletionItem.toHost? d doc) := by
  cases c <;> rfl

theorem Completion.isIncomplete?_toHost (c : Completion) : (c.toHost d doc).isIncomplete? = c.isIncomplete? := by
  cases c <;> rfl

end Pieces

namespace HostDocument

/-! ## Answers about a virtual document -/

section Made

variable {uri : Url} {t : Text} {v : Int} {doc : VirtualDocument}

theorem inRegion_of_toHostPosition? (hdoc : doc ∈ (make uri t v).documents) {q p : Position}
    (hp : (make uri t v).toHostPosition? doc q = some p) : p.InRegion t doc.region := by
  obtain ⟨before, after, h⟩ := exists_liesIn hdoc
  obtain ⟨a, b, hc, -, rfl⟩ := exists_cut_of_toHostPosition? h hp
  refine ⟨⟨before ++ a, b ++ after, text_cut h hc, rfl⟩, _, ?_, contains_cut h hc⟩
  rw [text_cut h hc, LineTable.offset?_endPosition]

theorem moves_of_toHostRange? (hdoc : doc ∈ (make uri t v).documents) {r r' : Range}
    (hr : (make uri t v).toHostRange? doc r = some r') : (make uri t v).Moves doc r r' := by
  obtain ⟨hs, he⟩ := toHostRange?_eq_some hr
  exact ⟨hr, inRegion_of_toHostPosition? hdoc hs, inRegion_of_toHostPosition? hdoc he⟩

theorem movesTo_of_location (hdoc : doc ∈ (make uri t v).documents) {l l' : Location}
    (h : l.toHost? (make uri t v) doc = some l') : l.MovesTo (make uri t v) doc l' := by
  constructor
  · intro hne
    rw [Location.toHost?_of_ne hne] at h
    cases h
    rfl
  · intro heq
    rw [Location.toHost?_of_eq heq] at h
    obtain ⟨r, hr, rfl⟩ := Option.map_eq_some_iff.1 h
    exact ⟨rfl, moves_of_toHostRange? hdoc hr⟩

theorem movesTo_of_link (hdoc : doc ∈ (make uri t v).documents) {l l' : LocationLink}
    (h : l.toHost? (make uri t v) doc = some l') : l.MovesTo (make uri t v) doc l' := by
  constructor
  · intro hne
    rw [LocationLink.toHost?_of_ne hne] at h
    cases h
    rfl
  · intro heq
    rw [LocationLink.toHost?_of_eq heq] at h
    obtain ⟨target, htarget, h⟩ := Option.bind_eq_some_iff.1 h
    obtain ⟨selection, hselection, rfl⟩ := Option.map_eq_some_iff.1 h
    exact ⟨rfl, moves_of_toHostRange? hdoc htarget, moves_of_toHostRange? hdoc hselection⟩

end Made

/-- Answers stay inside of the region that they are about. Whatever is answered about a virtual document,
every range that is told in the host is the one that `toHostRange?` gives it (`Moves`), with both ends exact and
inside of the region. A hover keeps its contents and loses its range only when the host has no place for it. Of the
proposals those are told, in their order, for all of whose ranges there is a place, and nothing but
these ranges changes. Linked ranges are told all together, or not at all when one has no place. Of the
locations and links, those into other documents are told as they are, and those into the virtual
document when there is a place for their target, again in their order. -/
theorem answers_stay_in_region (uri : Url) (t : Text) (v : Int) (doc : VirtualDocument)
    (hdoc : doc ∈ (make uri t v).documents) :
    let d := make uri t v
    (∀ h : Hover, (h.toHost d doc).contents = h.contents ∧
      (∀ r', (h.toHost d doc).range = some r' ↔ ∃ r, h.range = some r ∧ d.Moves doc r r') ∧
      ((h.toHost d doc).range = none ↔ ∀ r, h.range = some r → d.places doc r = false)) ∧
    (∀ c : Completion, (c.toHost d doc).isIncomplete? = c.isIncomplete? ∧
      List.Forall₂ (fun i i' => List.Forall₂ (d.Moves doc) i.ranges i'.ranges ∧ i'.bare = i.bare)
        (c.proposals.filter (·.isTold d doc)) (c.toHost d doc).proposals) ∧
    (∀ l : LinkedRanges, (l.toHost? d doc = none ↔ ∃ r ∈ l.ranges, d.places doc r = false) ∧
      ∀ l', l.toHost? d doc = some l' →
        List.Forall₂ (d.Moves doc) l.ranges l'.ranges ∧ l'.wordPattern = l.wordPattern) ∧
    (∀ l : Location, (Definition.one l).toHost d doc = (Definition.many [l]).toHost d doc) ∧
    (∀ ls : List Location, ∃ ls', (Definition.many ls).toHost d doc = .many ls' ∧
      List.Forall₂ (Location.MovesTo d doc) (ls.filter (·.isTold d doc)) ls') ∧
    ∀ ls : List LocationLink, ∃ ls', (Definition.links ls).toHost d doc = .links ls' ∧
      List.Forall₂ (LocationLink.MovesTo d doc) (ls.filter (·.isTold d doc)) ls' := by
  intro d
  have hmoves : ∀ r r', d.toHostRange? doc r = some r' → d.Moves doc r r' := fun r r' =>
    moves_of_toHostRange? hdoc
  refine ⟨fun h => ⟨rfl, fun r' => ?_, ?_⟩, fun c => ⟨c.isIncomplete?_toHost, ?_⟩, fun l => ⟨?_, fun l' hl => ?_⟩,
    fun l => ?_, fun ls => ⟨_, rfl, ?_⟩, fun ls => ⟨_, rfl, ?_⟩⟩
  · rw [Hover.range_toHost, Option.bind_eq_some_iff]
    constructor
    · rintro ⟨r, hr, hr'⟩
      exact ⟨r, hr, hmoves r r' hr'⟩
    · rintro ⟨r, hr, hr'⟩
      exact ⟨r, hr, hr'.range⟩
  · rw [Hover.range_toHost, Option.bind_eq_none_iff]
    simp only [HostDocument.places, Option.isSome_eq_false_iff, Option.isNone_iff_eq_none]
  · rw [Completion.proposals_toHost, forall₂_filterMap_iff fun i => (CompletionItem.isSome_toHost? i).symm]
    intro i _ i' hi
    obtain ⟨hr, hb⟩ := CompletionItem.moves_of_toHost? hi
    exact ⟨hr.imp hmoves, hb⟩
  · rw [LinkedRanges.toHost?_eq, Option.map_eq_none_iff, ← Option.not_isSome_iff_eq_none, isSome_mapM_iff]
    simp [HostDocument.places]
  · rw [LinkedRanges.toHost?_eq] at hl
    obtain ⟨ranges, hr, rfl⟩ := Option.map_eq_some_iff.1 hl
    exact ⟨(forall₂_of_mapM hr).imp hmoves, rfl⟩
  · simp only [Definition.toHost, List.filterMap_cons, List.filterMap_nil]
    cases l.toHost? d doc <;> rfl
  · rw [forall₂_filterMap_iff fun l => (Location.isSome_toHost? l).symm]
    exact fun l _ l' => movesTo_of_location hdoc
  · rw [forall₂_filterMap_iff fun l => (LocationLink.isSome_toHost? l).symm]
    exact fun l _ l' => movesTo_of_link hdoc

/-- A proposal with ranges that go beyond the end of their line, and one with a further edit on a line that
does not exist; linked ranges of which one has no place; a location in the virtual document and one in
another. -/
theorem answers_stay_in_region_mixed :
    let uri : Url := { scheme := ['f', 'i', 'l', 'e'], host := some [], path := ['/', 'a'] }
    let other : Url := { scheme := ['f', 'i', 'l', 'e'], host := some [], path := ['/', 'b'] }
    let t : Text := ['x', '\n', 'U', 'I', '!', '{', '<', '😀', '>', '}']
    let doc : VirtualDocument := ⟨(VirtualUri.region uri 0).url, ⟨6, 12⟩, ['<', '😀', '>']⟩
    let d := make uri t 1
    let near : Range := ⟨⟨0, 1⟩, ⟨0, 9⟩⟩
    let far : Range := ⟨⟨0, 1⟩, ⟨1, 0⟩⟩
    let whole : CompletionItem := ⟨"p", some (.insertOrReplace "a" near near), some [⟨near, "b"⟩], []⟩
    let broken : CompletionItem := ⟨"q", some (.replace ⟨near, "a"⟩), some [⟨far, "b"⟩], []⟩
    doc ∈ d.documents ∧
      (∃ i, ((Completion.list true [broken, whole]).toHost d doc).proposals = [i] ∧
        List.Forall₂ (d.Moves doc) [near, near, near] i.ranges ∧ i.bare = whole.bare) ∧
      (⟨[near, far], none⟩ : LinkedRanges).toHost? d doc = none ∧
      ∃ l l', (Definition.many [⟨doc.uri, near⟩, ⟨other, far⟩]).toHost d doc = .many [l, l'] ∧
        l.uri = uri ∧ d.Moves doc near l.range ∧ l' = ⟨other, far⟩ := by
  intro uri other t doc d near far whole broken
  have hdoc : doc ∈ d.documents := by decide +kernel
  obtain ⟨-, hproposals, hlinked, -, hlocations, -⟩ := answers_stay_in_region uri t 1 doc hdoc
  refine ⟨hdoc, ?_, (hlinked _).1.2 ⟨far, by simp, by decide +kernel⟩, ?_⟩
  · have hwhole : whole.isTold d doc = true := by decide +kernel
    have hbroken : broken.isTold d doc = false := by decide +kernel
    have hkept : [broken, whole].filter (·.isTold d doc) = [whole] := by
      rw [List.filter_cons_of_neg (by simp [hbroken]), List.filter_cons_of_pos hwhole, List.filter_nil]
    have h := (hproposals (.list true [broken, whole])).2
    rw [Completion.proposals, hkept, List.forall₂_cons_left_iff] at h
    obtain ⟨i, is, hi, his, heq⟩ := h
    rw [List.forall₂_nil_left_iff] at his
    exact ⟨i, by rw [heq, his], hi.1, hi.2⟩
  · have hkept : ([⟨doc.uri, near⟩, ⟨other, far⟩] : List Location).filter (·.isTold d doc) =
        [⟨doc.uri, near⟩, ⟨other, far⟩] := by
      decide +kernel
    obtain ⟨ls', htold, h⟩ := hlocations [⟨doc.uri, near⟩, ⟨other, far⟩]
    rw [hkept] at h
    obtain ⟨l, ls, hl, hls, rfl⟩ := List.forall₂_cons_left_iff.1 h
    obtain ⟨l', ls', hl', hls', rfl⟩ := List.forall₂_cons_left_iff.1 hls
    rw [List.forall₂_nil_left_iff] at hls'
    subst hls'
    have hown := hl.2 rfl
    exact ⟨l, l', htold, hown.1, hown.2, hl'.1 (by decide +kernel)⟩

/-! ## Origins of links -/

theorem line_toHostPosition? {d : HostDocument} {doc : VirtualDocument} {before after : Text}
    (h : doc.LiesIn d.text before after) {q p : Position} (hp : d.toHostPosition? doc q = some p) :
    p.line = Text.newlines before + q.line := by
  obtain ⟨a, b, hc, hq, rfl⟩ := exists_cut_of_toHostPosition? h hp
  rw [VirtualDocument.lines, hc] at hq
  rw [← LineTable.newlines_of_offset? hq, ← Text.newlines_append]
  rfl

/-- Where a region begins behind the first line, no range stands in the host where it stands in the
virtual document. -/
theorem toHostRange?_ne_self {d : HostDocument} {doc : VirtualDocument} {before after : Text}
    (h : doc.LiesIn d.text before after) (hline : 0 < Text.newlines before) (r : Range) :
    d.toHostRange? doc r ≠ some r := by
  intro hr
  have := line_toHostPosition? h (toHostRange?_eq_some hr).1
  omega

theorem originMoves_iff {d : HostDocument} {doc : VirtualDocument} {l l' : LocationLink}
    (h : l.toHost? d doc = some l') : l.OriginMoves d doc l' ↔ ¬ l.Leaks d doc := by
  unfold LocationLink.OriginMoves LocationLink.Leaks
  by_cases hown : l.targetUri = doc.uri
  · rw [LocationLink.toHost?_of_eq hown] at h
    obtain ⟨target, -, h⟩ := Option.bind_eq_some_iff.1 h
    obtain ⟨selection, -, rfl⟩ := Option.map_eq_some_iff.1 h
    refine iff_of_true ?_ fun hleaks => hleaks.1 hown
    cases ho : l.origin.bind (d.toHostRange? doc) with
    | none => exact .inl rfl
    | some r' =>
      obtain ⟨r, hr, hr'⟩ := Option.bind_eq_some_iff.1 ho
      exact .inr ⟨r, r', hr, hr', rfl⟩
  · rw [LocationLink.toHost?_of_ne hown] at h
    cases h
    constructor
    · rintro hmoves ⟨-, r, hr, hne⟩
      rcases hmoves with hnone | ⟨r₀, r', hr₀, hr', hto⟩
      · rw [hr] at hnone
        cases hnone
      · rw [hr] at hr₀ hto
        cases hr₀
        cases hto
        exact hne hr'
    · intro hleaks
      cases ho : l.origin with
      | none => exact .inl rfl
      | some r => exact .inr ⟨r, r, rfl, not_not.1 fun hne => hleaks ⟨hown, r, ho, hne⟩, rfl⟩

/-- The origins of links are told in the host, except those of links into other documents. Of the links that
are answered about a virtual document, all that are told have an origin that is absent, or is the one that the
host gives for theirs (`OriginMoves`), just when no link into another document has an origin that the host
gives another place (`Leaks`). If the region begins behind the first line, every origin of such a link is of
this kind. -/
theorem origins_move_unless_leaked (uri : Url) (t : Text) (v : Int) (doc : VirtualDocument)
    (hdoc : doc ∈ (make uri t v).documents) (ls : List LocationLink) :
    let d := make uri t v
    (∃ ls', (Definition.links ls).toHost d doc = .links ls' ∧
      (List.Forall₂ (LocationLink.OriginMoves d doc) (ls.filter (·.isTold d doc)) ls' ↔
        ∀ l ∈ ls, ¬ l.Leaks d doc)) ∧
    ∀ p, d.lines.position? doc.region.start = some p → 0 < p.line →
      ∀ l : LocationLink, l.Leaks d doc ↔ l.targetUri ≠ doc.uri ∧ l.origin ≠ none := by
  intro d
  refine ⟨⟨_, rfl, ?_⟩, fun p hp hline l => ?_⟩
  · rw [forall₂_filterMap_iff fun l => (LocationLink.isSome_toHost? l).symm]
    constructor
    · intro h l hl hleaks
      have htold := LocationLink.toHost?_of_ne (d := d) hleaks.1
      exact (originMoves_iff htold).1 (h l hl l htold) hleaks
    · intro h l hl l' hl'
      exact (originMoves_iff hl').2 (h l hl)
  · obtain ⟨before, after, h⟩ := exists_liesIn hdoc
    have hstart : d.lines.position? doc.region.start = some (Text.endPosition before) := by
      rw [lines, make_text, h.text, h.start, List.append_assoc, LineTable.position?_append]
    rw [hstart] at hp
    cases hp
    constructor
    · rintro ⟨hne, r, hr, -⟩
      exact ⟨hne, by simp [hr]⟩
    · rintro ⟨hne, horigin⟩
      obtain ⟨r, hr⟩ := Option.ne_none_iff_exists'.1 horigin
      exact ⟨hne, r, hr, toHostRange?_ne_self h hline r⟩

/-- A region on the second line: links within it, and into another document without an origin, are told well;
a link into another document with an origin is not. -/
theorem origins_move_unless_leaked_second_line :
    let uri : Url := { scheme := ['f', 'i', 'l', 'e'], host := some [], path := ['/', 'a'] }
    let other : Url := { scheme := ['f', 'i', 'l', 'e'], host := some [], path := ['/', 'b'] }
    let t : Text := ['x', '\n', 'U', 'I', '!', '{', 'a', '}']
    let doc : VirtualDocument := ⟨(VirtualUri.region uri 0).url, ⟨6, 7⟩, ['a']⟩
    let d := make uri t 1
    let r : Range := ⟨⟨0, 0⟩, ⟨0, 1⟩⟩
    let within : LocationLink := ⟨some r, doc.uri, r, r⟩
    let bare : LocationLink := ⟨none, other, r, r⟩
    let leaking : LocationLink := ⟨some r, other, r, r⟩
    doc ∈ d.documents ∧
      (∃ ls', (Definition.links [within, bare]).toHost d doc = .links ls' ∧
        List.Forall₂ (LocationLink.OriginMoves d doc) ([within, bare].filter (·.isTold d doc)) ls') ∧
      ∃ ls', (Definition.links [within, leaking]).toHost d doc = .links ls' ∧
        ¬ List.Forall₂ (LocationLink.OriginMoves d doc) ([within, leaking].filter (·.isTold d doc)) ls' := by
  intro uri other t doc d r within bare leaking
  have hdoc : doc ∈ d.documents := by decide +kernel
  obtain ⟨⟨ls', htold, hmoves⟩, hline⟩ := origins_move_unless_leaked uri t 1 doc hdoc [within, bare]
  refine ⟨hdoc, ⟨ls', htold, hmoves.2 ?_⟩, ?_⟩
  · rintro l hl ⟨hne, r, hr, -⟩
    simp only [List.mem_cons, List.not_mem_nil, or_false] at hl
    rcases hl with rfl | rfl
    · exact hne rfl
    · cases hr
  · have hleaks : leaking.Leaks d doc :=
      (hline ⟨1, 4⟩ (by decide +kernel) (by decide) leaking).2 ⟨by decide +kernel, by decide⟩
    obtain ⟨⟨ls', htold, hmoves⟩, -⟩ := origins_move_unless_leaked uri t 1 doc hdoc [within, leaking]
    exact ⟨ls', htold, fun h => hmoves.1 h leaking (by simp) hleaks⟩

/-- A link into another document is told with the origin that it has in the virtual document, which in the
host is a place in front of the region. -/
theorem origin_leaks_in_front :
    let uri : Url := { scheme := ['f', 'i', 'l', 'e'], host := some [], path := ['/', 'a'] }
    let other : Url := { scheme := ['f', 'i', 'l', 'e'], host := some [], path := ['/', 'b'] }
    let doc : VirtualDocument := ⟨(VirtualUri.region uri 0).url, ⟨4, 5⟩, ['a']⟩
    let d := make uri ['U', 'I', '!', '{', 'a', '}'] 1
    let l : LocationLink := ⟨some ⟨⟨0, 0⟩, ⟨0, 1⟩⟩, other, ⟨⟨0, 0⟩, ⟨0, 1⟩⟩, ⟨⟨0, 0⟩, ⟨0, 1⟩⟩⟩
    doc ∈ d.documents ∧ (Definition.links [l]).toHost d doc = .links [l] ∧
      d.toHostRange? doc ⟨⟨0, 0⟩, ⟨0, 1⟩⟩ = some ⟨⟨0, 4⟩, ⟨0, 5⟩⟩ ∧ ¬ l.OriginMoves d doc l := by
  intro uri other doc d l
  have hrange : d.toHostRange? doc ⟨⟨0, 0⟩, ⟨0, 1⟩⟩ = some ⟨⟨0, 4⟩, ⟨0, 5⟩⟩ := by decide +kernel
  have htold : l.toHost? d doc = some l := LocationLink.toHost?_of_ne (by decide +kernel)
  refine ⟨by decide +kernel, by decide +kernel, hrange, ?_⟩
  rw [originMoves_iff htold, not_not]
  exact ⟨by decide +kernel, _, rfl, by rw [hrange]; decide⟩

end HostDocument

end EmbeddedMarkup
