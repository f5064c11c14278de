/-
The virtual documents that a session `Has`: what they are made of, which of them `inquire?` leads to, and
which are left when a host document is replaced or closed, so that some are `vanished`.
-/
import EmbeddedMarkup.Inquiry
import EmbeddedMarkup.Proofs.Session.Basic
import EmbeddedMarkup.Proofs.VirtualUri

namespace EmbeddedMarkup

/-- `make?` makes a virtual document of every slice of a text, for every virtual URI is one. -/
theorem VirtualDocument.make?_eq (host : Url) (index : Nat) (r : Region) (t : Text) :
    make? host index r t =
      (Text.slice? t r.start r.stop).map fun content => ⟨(VirtualUri.region host index).url, r, content⟩ := by
  unfold make?
  rw [VirtualUri.toUrl?_eq]
  cases Text.slice? t r.start r.stop <;> rfl

namespace HostDocument

/-! ## Virtual documents of a host -/

theorem mem_documentsFrom {uri : Url} {t : Text} {n : Nat} {regions : List Region} {doc : VirtualDocument}
    (h : doc ∈ documentsFrom uri t n regions) :
    doc.region ∈ regions ∧ Text.slice? t doc.region.start doc.region.stop = some doc.content ∧
      ∃ index, doc.uri = (VirtualUri.region uri index).url := by
  induction regions generalizing n with
  | nil => cases h
  | cons r regions ih =>
    rcases List.mem_append.1 h with h | h
    · rw [Option.mem_toList] at h
      rw [VirtualDocument.make?_eq] at h
      obtain ⟨content, hcontent, rfl⟩ := Option.map_eq_some_iff.1 h
      exact ⟨List.mem_cons_self .., hcontent, n, rfl⟩
    · obtain ⟨hr, hcontent, huri⟩ := ih h
      exact ⟨List.mem_cons_of_mem _ hr, hcontent, huri⟩

/-- A virtual document of a host holds the text of one of the host's regions. -/
theorem mem_documents_make {uri : Url} {t : Text} {v : Int} {doc : VirtualDocument}
    (h : doc ∈ (make uri t v).documents) :
    doc.region ∈ Region.scan t ∧ Text.slice? t doc.region.start doc.region.stop = some doc.content ∧
      ∃ index, doc.uri = (VirtualUri.region uri index).url :=
  mem_documentsFrom h

theorem mem_of_documentAt? {d : HostDocument} {p q : Position} {doc : VirtualDocument}
    (h : d.documentAt? p = some (doc, q)) : doc ∈ d.documents := by
  unfold documentAt? at h
  obtain ⟨o, -, h⟩ := Option.bind_eq_some_iff.1 h
  obtain ⟨⟨doc', inner⟩, hfind, h⟩ := Option.bind_eq_some_iff.1 h
  obtain ⟨q', -, h⟩ := Option.bind_eq_some_iff.1 h
  cases h
  obtain ⟨doc', hmem, hdoc⟩ := List.exists_of_findSome?_eq_some hfind
  obtain ⟨o', -, ho⟩ := Option.map_eq_some_iff.1 hdoc
  cases ho
  exact hmem

/-- What is `vanished` of a host is what it had and the next version does not have. -/
theorem mem_vanished {d : HostDocument} {current : Option HostDocument} {doc : VirtualDocument}
    (hdoc : doc ∈ d.documents) (hnone : ∀ d', current = some d' → ∀ doc' ∈ d'.documents, doc'.uri ≠ doc.uri) :
    doc.uri ∈ d.vanished current := by
  unfold vanished
  refine List.mem_filter.2 ⟨List.mem_map_of_mem hdoc, ?_⟩
  cases current with
  | none => rfl
  | some d' =>
    rw [Option.bind_some, Option.isNone_iff_eq_none, document?, List.find?_eq_none]
    intro doc' hdoc'
    simpa using hnone d' rfl doc' hdoc'

end HostDocument

namespace Session

/-! ## Virtual documents of a session -/

/-- Whether an open document has a virtual document with this address. -/
def Has (s : Session) (uri : Url) : Prop :=
  ∃ host d, s.get? host = some d ∧ ∃ doc ∈ d.documents, doc.uri = uri

theorem WF.eq_make {s : Session} (h : s.WF) {uri : Url} {d : HostDocument} (hd : s.get? uri = some d) :
    d = HostDocument.make uri d.text d.version := by
  obtain ⟨hmem, rfl⟩ := mem_of_get? hd
  exact h.made d hmem

/-- What a well-formed session `Has` is a virtual URI. -/
theorem WF.has_virtual {s : Session} (h : s.WF) {uri : Url} (hu : s.Has uri) : ∃ v : VirtualUri, uri = v.url := by
  obtain ⟨host, d, hd, doc, hdoc, rfl⟩ := hu
  rw [h.eq_make hd] at hdoc
  obtain ⟨-, -, index, hi⟩ := HostDocument.mem_documents_make hdoc
  exact ⟨_, hi⟩

/-- `erase` leaves every virtual document but those of the host. -/
theorem Has.erase {s : Session} {uri u : Url} (h : s.Has u) (hv : ∀ d, s.get? uri = some d → u ∉ d.vanished none) :
    (s.erase uri).Has u := by
  obtain ⟨host, d, hd, doc, hdoc, rfl⟩ := h
  refine ⟨host, d, ?_, doc, hdoc, rfl⟩
  rw [get?_erase, if_neg, hd]
  rintro rfl
  exact hv d hd (HostDocument.mem_vanished hdoc fun _ h => by cases h)

theorem Has.put_of_erase {s : Session} {uri u : Url} (h : (s.erase uri).Has u) (t : Text) (v : Int) :
    (s.put uri t v).1.Has u := by
  obtain ⟨host, d, hd, doc, hdoc, rfl⟩ := h
  refine ⟨host, d, ?_, doc, hdoc, rfl⟩
  rw [get?_erase] at hd
  split at hd
  · cases hd
  · rename_i hne
    rw [get?_put, if_neg hne, hd]

/-- `put` leaves every virtual document but those that the next version of the host does not have. -/
theorem Has.put {s : Session} {uri u : Url} (h : s.Has u) (t : Text) (v : Int)
    (hv : ∀ d, s.get? uri = some d → u ∉ d.vanished (some (HostDocument.make uri t v))) :
    (s.put uri t v).1.Has u := by
  by_cases hnew : ∃ doc ∈ (HostDocument.make uri t v).documents, doc.uri = u
  · exact ⟨uri, _, by rw [get?_put, if_pos rfl], hnew⟩
  · -- the new version does not have it, so it cannot be one of the host's
    obtain ⟨host, d, hd, doc, hdoc, rfl⟩ := h
    refine ⟨host, d, ?_, doc, hdoc, rfl⟩
    rw [get?_put, if_neg, hd]
    rintro rfl
    refine hv d hd (HostDocument.mem_vanished hdoc fun d' hd' doc' hdoc' heq => hnew ⟨doc', ?_, heq⟩)
    cases hd'
    exact hdoc'

/-! ## Inquiries -/

theorem inquire?_eq_some {s : Session} {uri : Url} {p : Position} {i : Inquiry} (h : s.inquire? uri p = some i) :
    s.get? uri = some i.host ∧ i.host.documentAt? p = some (i.target, i.position) := by
  unfold inquire? at h
  obtain ⟨host, hhost, h⟩ := Option.bind_eq_some_iff.1 h
  obtain ⟨⟨target, position⟩, hat, h⟩ := Option.bind_eq_some_iff.1 h
  cases h
  exact ⟨hhost, hat⟩

/-- `inquire?` leads to a virtual document that the session `Has`. -/
theorem has_target {s : Session} {uri : Url} {p : Position} {i : Inquiry} (h : s.inquire? uri p = some i) :
    s.Has i.target.uri := by
  obtain ⟨hhost, hat⟩ := inquire?_eq_some h
  exact ⟨uri, i.host, hhost, i.target, HostDocument.mem_of_documentAt? hat, rfl⟩

end Session

end EmbeddedMarkup
