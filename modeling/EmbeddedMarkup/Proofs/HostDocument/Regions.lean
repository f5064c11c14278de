/-
One virtual document for each region. `HostDocument.make` skips no region that `scan` finds, so that both
lists have the same indices; and regions are apart, ends included, so that `Region.at?` and `documentAt?`
lead to one index. The addresses count the regions, and what is `vanished` with an edit are the indices
that the next version no longer has.
-/
import EmbeddedMarkup.Proofs.Session.Routing
import Mathlib.Data.List.Intervals

namespace EmbeddedMarkup

/-- The regions of a host are told apart by their addresses. -/
theorem VirtualUri.index_of_url {host : Url} {i j : Nat} (h : (region host i).url = (region host j).url) : i = j := by
  have hpath : '/' :: ((region host i).place ++ suffix) = '/' :: ((region host j).place ++ suffix) :=
    congrArg Url.path h
  have hplace := List.append_cancel_right (List.cons.inj hpath).2
  have hdigits := (List.cons.inj (List.append_cancel_left hplace)).2
  rw [← Decimal.value_digits i, hdigits, Decimal.value_digits]

namespace Region

/-- An offset is in one region of `scan` at most, also if it is at an end. -/
theorem index_of_contains {t : Text} {o i j : Nat} {r r' : Region} (hi : (scan t)[i]? = some r)
    (hj : (scan t)[j]? = some r') (ho : r.contains o = true) (ho' : r'.contains o = true) : i = j := by
  -- a region that comes first ends in front of the other
  have hnot {i j : Nat} {r r' : Region} (hi : (scan t)[i]? = some r) (hj : (scan t)[j]? = some r')
      (ho : r.contains o = true) (ho' : r'.contains o = true) : ¬ i < j := by
    intro hlt
    obtain ⟨hil, rfl⟩ := List.getElem?_eq_some_iff.1 hi
    obtain ⟨hjl, rfl⟩ := List.getElem?_eq_some_iff.1 hj
    have hapart : (scan t)[i].stop < (scan t)[j].start :=
      List.pairwise_iff_getElem.1 (scanFrom_pairwise 0 t) i j hil hjl hlt
    simp only [contains, Bool.and_eq_true, decide_eq_true_eq] at ho ho'
    omega
  have := hnot hi hj ho ho'
  have := hnot hj hi ho' ho
  omega

/-- The region that `at?` finds at an offset is the one that holds it. -/
theorem at?_eq_some_iff {t : Text} {o : Nat} {r : Region} :
    at? (scan t) o = some r ↔ r ∈ scan t ∧ r.contains o = true := by
  have hfound {r : Region} (h : at? (scan t) o = some r) : r ∈ scan t ∧ r.contains o = true :=
    ⟨List.mem_of_find?_eq_some h, List.find?_some (p := fun r : Region => r.contains o) h⟩
  constructor
  · exact hfound
  · rintro ⟨hr, ho⟩
    obtain ⟨r', hr'⟩ : ∃ r', at? (scan t) o = some r' :=
      Option.isSome_iff_exists.1 (List.find?_isSome.2 ⟨r, hr, ho⟩)
    obtain ⟨i, hi⟩ := List.mem_iff_getElem?.1 hr
    obtain ⟨j, hj⟩ := List.mem_iff_getElem?.1 (hfound hr').1
    obtain rfl := index_of_contains hi hj ho (hfound hr').2
    rw [hr', ← hi, hj]

end Region

namespace HostDocument

/-! ## Indices -/

theorem map_region_documents (uri : Url) (t : Text) (v : Int) :
    (make uri t v).documents.map (·.region) = Region.scan t := by
  refine List.ext_getElem? fun n => ?_
  rw [List.getElem?_map]
  cases hr : (Region.scan t)[n]? with
  | none => rw [getElem?_documents, hr]; rfl
  | some r =>
    obtain ⟨content, -, hdoc⟩ := getElem?_documents_of_region uri v hr
    rw [hdoc]; rfl

theorem length_documents (uri : Url) (t : Text) (v : Int) :
    (make uri t v).documents.length = (Region.scan t).length := by
  rw [← map_region_documents uri t v, List.length_map]

/-- The addresses of the virtual documents that `make` lists count the regions. -/
theorem map_uri_documents (uri : Url) (t : Text) (v : Int) :
    (make uri t v).documents.map (·.uri) =
      (List.Ico 0 (Region.scan t).length).map fun n => (VirtualUri.region uri n).url := by
  refine List.ext_getElem? fun n => ?_
  rw [List.Ico.zero_bot, List.getElem?_map, List.getElem?_map]
  cases hr : (Region.scan t)[n]? with
  | none =>
    rw [getElem?_documents, hr, List.getElem?_eq_none (by simpa using List.getElem?_eq_none_iff.1 hr)]
    rfl
  | some r =>
    obtain ⟨content, -, hdoc⟩ := getElem?_documents_of_region uri v hr
    rw [hdoc, List.getElem?_range (List.getElem?_eq_some_iff.1 hr).1]
    rfl

theorem nodup_uri_documents (uri : Url) (t : Text) (v : Int) : ((make uri t v).documents.map (·.uri)).Nodup := by
  rw [map_uri_documents]
  exact (List.Ico.nodup 0 _).map fun _ _ => VirtualUri.index_of_url

/-- A virtual document and its region stand at one index, and at no other. -/
theorem exists_index {uri : Url} {t : Text} {v : Int} {doc : VirtualDocument} (h : doc ∈ (make uri t v).documents) :
    ∃ i : Nat, ∀ j : Nat, ((make uri t v).documents[j]? = some doc ↔ j = i) ∧
      ((Region.scan t)[j]? = some doc.region ↔ j = i) := by
  obtain ⟨i, hi⟩ := List.mem_iff_getElem?.1 h
  have hregion {j : Nat} (hj : (make uri t v).documents[j]? = some doc) : (Region.scan t)[j]? = some doc.region := by
    rw [← map_region_documents uri t v, List.getElem?_map, hj, Option.map_some]
  have hstart : doc.region.contains doc.region.start = true := by
    obtain ⟨before, after, hlies⟩ := exists_liesIn h
    have := contains_cut (a := []) (b := doc.content) hlies rfl
    rwa [List.append_nil, ← hlies.start] at this
  have hunique {j : Nat} (hj : (Region.scan t)[j]? = some doc.region) : j = i :=
    Region.index_of_contains hj (hregion hi) hstart hstart
  refine ⟨i, fun j => ⟨⟨fun hj => hunique (hregion hj), ?_⟩, hunique, ?_⟩⟩
  · rintro rfl
    exact hi
  · rintro rfl
    exact hregion hi

/-! ## What is found at a position -/

theorem regionAt?_make {uri : Url} {t : Text} {v : Int} {p : Position} {r : Region} :
    (make uri t v).regionAt? p = some r ↔
      ∃ o, (make uri t v).lines.offset? p = some o ∧ r ∈ Region.scan t ∧ r.contains o = true := by
  unfold regionAt?
  rw [Option.bind_eq_some_iff]
  exact exists_congr fun o => and_congr_right fun _ => Region.at?_eq_some_iff

/-- `regionAt?` gives the region of the virtual document that `documentAt?` gives. -/
theorem regionAt?_iff_documentAt? {uri : Url} {t : Text} {v : Int} {p : Position} {r : Region} :
    (make uri t v).regionAt? p = some r ↔ ∃ doc q, (make uri t v).documentAt? p = some (doc, q) ∧ doc.region = r := by
  rw [regionAt?_make]
  constructor
  · rintro ⟨o, ho, hr, hin⟩
    obtain ⟨doc, hdoc, rfl⟩ := exists_document_of_region uri v hr
    obtain ⟨q, hq, -⟩ := documentAt?_of_contains hdoc ho hin
    exact ⟨doc, q, hq, rfl⟩
  · rintro ⟨doc, q, hat, rfl⟩
    obtain ⟨hdoc, o, ho, hin, -⟩ := documentAt?_eq_some hat
    exact ⟨o, ho, (mem_documents_make hdoc).1, hin⟩

/-! ## What vanishes -/

theorem isNone_document?_iff {uri : Url} {t : Text} {v : Int} {i : Nat} :
    ((make uri t v).document? (VirtualUri.region uri i).url).isNone = true ↔ (Region.scan t).length ≤ i := by
  have hmem : (VirtualUri.region uri i).url ∈ (make uri t v).documents.map (·.uri) ↔ i < (Region.scan t).length := by
    rw [map_uri_documents, List.mem_map]
    constructor
    · rintro ⟨n, hn, hu⟩
      obtain rfl := VirtualUri.index_of_url hu
      exact (List.Ico.mem.1 hn).2
    · exact fun hi => ⟨i, List.Ico.mem.2 ⟨Nat.zero_le i, hi⟩, rfl⟩
  unfold document?
  rw [Option.isNone_iff_eq_none, List.find?_eq_none, ← Nat.not_lt, ← hmem, List.mem_map]
  simp

/-- What is `vanished` of a host are the regions that the next version does not count to. -/
theorem vanished_make (uri : Url) (t t' : Text) (v v' : Int) :
    (make uri t v).vanished (some (make uri t' v')) =
      (List.Ico (Region.scan t').length (Region.scan t).length).map fun i => (VirtualUri.region uri i).url := by
  unfold vanished
  rw [map_uri_documents, List.filter_map]
  congr 1
  calc (List.Ico 0 (Region.scan t).length).filter _
      = (List.Ico 0 (Region.scan t).length).filter fun i => (Region.scan t').length ≤ i := by
        refine List.filter_congr fun i _ => ?_
        rw [Bool.eq_iff_iff, decide_eq_true_eq, ← isNone_document?_iff]
        rfl
    _ = List.Ico (Region.scan t').length (Region.scan t).length := by
        rw [List.Ico.filter_le, Nat.max_eq_right (Nat.zero_le _)]

/-- A host document has one virtual document for each region. The document with an index has the region
with that index, the text that stands there, and the address of that index; all addresses differ. Every
offset is in one region at most, ends included; `regionAt?` gives the region of the virtual document that
`documentAt?` gives, which has the same index and no other. Between two versions of the host those
addresses are `vanished`, in order, whose index the second does not have. -/
theorem document_for_each_region (uri : Url) (t : Text) (v : Int) :
    let d := make uri t v
    (d.documents.length = d.regions.length ∧
      ∀ (i : Nat) r, d.regions[i]? = some r → ∃ doc, d.documents[i]? = some doc ∧ doc.region = r ∧
        Text.slice? t r.start r.stop = some doc.content ∧ (VirtualUri.region uri i).toUrl? = some doc.uri) ∧
    (d.documents.map (·.uri)).Nodup ∧
    (∀ (o i j : Nat) r r', d.regions[i]? = some r → d.regions[j]? = some r' → r.contains o = true →
      r'.contains o = true → i = j) ∧
    (∀ p r, d.regionAt? p = some r ↔ ∃ doc q, d.documentAt? p = some (doc, q) ∧ doc.region = r) ∧
    (∀ p doc q, d.documentAt? p = some (doc, q) → ∃ i : Nat, ∀ j : Nat,
      (d.documents[j]? = some doc ↔ j = i) ∧ (d.regions[j]? = some doc.region ↔ j = i)) ∧
    ∀ t' v', (d.vanished (some (make uri t' v'))).map some =
      (List.Ico (make uri t' v').regions.length d.regions.length).map fun i => (VirtualUri.region uri i).toUrl? := by
  intro d
  refine ⟨⟨length_documents uri t v, fun i r hr => ?_⟩, nodup_uri_documents uri t v,
    fun o i j r r' => Region.index_of_contains, fun p r => regionAt?_iff_documentAt?,
    fun p doc q hat => exists_index (mem_of_documentAt? hat), fun t' v' => ?_⟩
  · obtain ⟨content, hcontent, hdoc⟩ := getElem?_documents_of_region uri v hr
    exact ⟨_, hdoc, rfl, hcontent, VirtualUri.toUrl?_eq _⟩
  · rw [vanished_make, List.map_map]
    exact List.map_congr_left fun i _ => (VirtualUri.toUrl?_eq _).symm

/-- The end of the second of two regions, behind a character of two bytes, and an edit that leaves neither. -/
theorem document_for_each_region_second :
    let uri : Url := { scheme := ['f', 'i', 'l', 'e'], host := some [], path := ['/', 'a'] }
    let t : Text := ['U', 'I', '!', '{', 'a', '}', 'U', 'I', '!', '(', 'é', ')']
    let d := make uri t 1
    (d.regions[1]? = some ⟨10, 12⟩ ∧ d.regionAt? ⟨0, 11⟩ = some ⟨10, 12⟩) ∧
      (∃ doc q, d.documentAt? ⟨0, 11⟩ = some (doc, q) ∧ doc.region = ⟨10, 12⟩ ∧ doc.content = ['é'] ∧
        (VirtualUri.region uri 1).toUrl? = some doc.uri ∧ ∀ j : Nat, d.documents[j]? = some doc ↔ j = 1) ∧
      (d.vanished (some (make uri ['a'] 2))).map some =
        [(VirtualUri.region uri 0).toUrl?, (VirtualUri.region uri 1).toUrl?] := by
  intro uri t d
  have hregion : d.regions[1]? = some ⟨10, 12⟩ := by decide +kernel
  have hposition : d.regionAt? ⟨0, 11⟩ = some ⟨10, 12⟩ := by decide +kernel
  obtain ⟨⟨-, hdocument⟩, -, -, hsame, hindex, hvanished⟩ := document_for_each_region uri t 1
  obtain ⟨doc, q, hat, hr⟩ := (hsame ⟨0, 11⟩ ⟨10, 12⟩).1 hposition
  obtain ⟨i, hi⟩ := hindex ⟨0, 11⟩ doc q hat
  obtain rfl : 1 = i := (hi 1).2.1 (hregion.trans (congrArg some hr.symm))
  obtain ⟨doc', hdoc', -, hcontent, huri⟩ := hdocument 1 ⟨10, 12⟩ hregion
  obtain rfl : doc' = doc := Option.some.inj (hdoc'.symm.trans ((hi 1).1.2 rfl))
  have htext : Text.slice? t 10 12 = some ['é'] := by decide +kernel
  refine ⟨⟨hregion, hposition⟩, ⟨doc', q, hat, hr, ?_, huri, fun j => (hi j).1⟩, ?_⟩
  · exact Option.some.inj (hcontent.symm.trans htext)
  · rw [hvanished, show (make uri ['a'] 2).regions.length = 0 by decide +kernel,
      show (make uri t 1).regions.length = 2 by decide +kernel]
    rfl

end HostDocument

end EmbeddedMarkup
