/-
The views of an open document. A region can be read under its own address by `virtualContent`, by its index
among the `documents`, or in place in what `mask` gives; and a virtual document is found by its address
in the host document itself. All of these agree, since every region of the text has a virtual document,
so that the index of the one is the index of the other.
-/
import EmbeddedMarkup.Proofs.Mask
import EmbeddedMarkup.Proofs.Region.Scan
import EmbeddedMarkup.Proofs.Session.Virtual
import EmbeddedMarkup.Proofs.VirtualUri.ReadBack

namespace EmbeddedMarkup

namespace HostDocument

/-! ## Virtual documents by index -/

theorem getElem?_documentsFrom (uri : Url) {t : Text} {regions : List Region}
    (h : ∀ r ∈ regions, ∃ inner, Text.slice? t r.start r.stop = some inner) (n i : Nat) :
    (documentsFrom uri t n regions)[i]? = regions[i]?.bind fun r => VirtualDocument.make? uri (n + i) r t := by
  induction regions generalizing n i with
  | nil => rfl
  | cons r regions ih =>
    -- no region is skipped, so that the index of a document stays that of its region
    obtain ⟨inner, hinner⟩ := h r (List.mem_cons_self ..)
    have hrest := ih fun r' hr' => h r' (List.mem_cons_of_mem _ hr')
    have hmake (k : Nat) : VirtualDocument.make? uri k r t = some ⟨(VirtualUri.region uri k).url, r, inner⟩ := by
      rw [VirtualDocument.make?_eq, hinner, Option.map_some]
    rw [documentsFrom, hmake, Option.toList_some, List.singleton_append]
    cases i with
    | zero => simp [hmake]
    | succ i =>
      rw [List.getElem?_cons_succ, List.getElem?_cons_succ, hrest, Nat.add_assoc, Nat.add_comm 1 i]

/-- The virtual document with an index is that of the region with this index. -/
theorem getElem?_documents (uri : Url) (t : Text) (v : Int) (n : Nat) :
    (make uri t v).documents[n]? = (Region.scan t)[n]?.bind fun r =>
      (Text.slice? t r.start r.stop).map fun content => ⟨(VirtualUri.region uri n).url, r, content⟩ := by
  have h := getElem?_documentsFrom uri (fun r hr => Region.exists_slice_of_mem_scan (t := t) hr) 0 n
  simp only [Nat.zero_add, VirtualDocument.make?_eq] at h
  exact h

theorem getElem?_documents_of_region (uri : Url) {t : Text} (v : Int) {n : Nat} {r : Region}
    (hr : (Region.scan t)[n]? = some r) :
    ∃ content, Text.slice? t r.start r.stop = some content ∧
      (make uri t v).documents[n]? = some ⟨(VirtualUri.region uri n).url, r, content⟩ := by
  obtain ⟨content, hcontent⟩ := Region.exists_slice_of_mem_scan (List.mem_of_getElem? hr)
  refine ⟨content, hcontent, ?_⟩
  rw [getElem?_documents, hr, Option.bind_some, hcontent, Option.map_some]

/-- An index of a virtual document can be counted to, and is the one in its address. -/
theorem uri_of_getElem?_documents {uri : Url} {t : Text} {v : Int} {i : Nat} {doc : VirtualDocument}
    (h : (make uri t v).documents[i]? = some doc) :
    i < Text.byteLength t ∧ doc.uri = (VirtualUri.region uri i).url := by
  rw [getElem?_documents] at h
  obtain ⟨r, hr, h⟩ := Option.bind_eq_some_iff.1 h
  obtain ⟨content, -, rfl⟩ := Option.map_eq_some_iff.1 h
  have hlt : i < (Region.scan t).length := (List.getElem?_eq_some_iff.1 hr).1
  have hle : (Region.scan t).length ≤ Text.byteLength t := Region.length_scanFrom_le 0 t
  exact ⟨Nat.lt_of_lt_of_le hlt hle, rfl⟩

theorem slice?_masked (uri : Url) {t : Text} (v : Int) {r : Region} (hr : r ∈ Region.scan t) :
    Text.slice? (make uri t v).masked r.start r.stop = Text.slice? t r.start r.stop := by
  have hapart : (Region.scan t).Pairwise fun r r' => r.stop ≤ r'.start :=
    (Region.scanFrom_pairwise 0 t).imp Nat.le_of_lt
  exact Mask.slice?_mask hapart (fun r' hr' => Region.exists_slice_of_mem_scan hr') hr

end HostDocument

namespace Session

/-! ## Contents behind addresses -/

theorem virtualContent_masked (s : Session) {host : Url} (h : host.IsNormal) :
    s.virtualContent (VirtualUri.masked host).url = ((s.get? host).map HostDocument.masked).getD [] := by
  have hgenuine : (VirtualUri.masked host).IsGenuine := h
  unfold virtualContent
  rw [VirtualUri.ofUrl?_url hgenuine]

theorem virtualContent_region (s : Session) {host : Url} (h : host.IsNormal) {n : Nat} (hn : n < 2 ^ 64) :
    s.virtualContent (VirtualUri.region host n).url =
      (((s.get? host).bind fun d => d.documents[n]?).map (·.content)).getD [] := by
  have hgenuine : (VirtualUri.region host n).IsGenuine := ⟨h, hn⟩
  unfold virtualContent
  rw [VirtualUri.ofUrl?_url hgenuine]

/-! ## An open document -/

section Open

variable {s : Session} {host : Url} {d : HostDocument}

theorem virtualContent_masked_of_open (hhost : host.IsNormal) (hd : s.get? host = some d) :
    s.virtualContent (VirtualUri.masked host).url = d.masked := by
  rw [s.virtualContent_masked hhost, hd, Option.map_some, Option.getD_some]

theorem virtualContent_region_of_open (hhost : host.IsNormal) (hd : s.get? host = some d) {n : Nat} (hn : n < 2 ^ 64) :
    s.virtualContent (VirtualUri.region host n).url = (d.documents[n]?.map (·.content)).getD [] := by
  rw [s.virtualContent_region hhost hn, hd, Option.bind_some]

/-- Under the address of a region stands what stands at the region, in the text and in the masked text. -/
theorem WF.slice?_region (h : s.WF) (hhost : host.IsNormal) (hd : s.get? host = some d) {n : Nat} (hn : n < 2 ^ 64)
    {r : Region} (hr : (Region.scan d.text)[n]? = some r) :
    Text.slice? d.text r.start r.stop = some (s.virtualContent (VirtualUri.region host n).url) ∧
      Text.slice? d.masked r.start r.stop = some (s.virtualContent (VirtualUri.region host n).url) := by
  have hmake := h.eq_make hd
  obtain ⟨content, hcontent, hdoc⟩ := HostDocument.getElem?_documents_of_region host d.version hr
  have hmasked := HostDocument.slice?_masked host d.version (List.mem_of_getElem? hr)
  rw [← hmake] at hdoc hmasked
  rw [virtualContent_region_of_open hhost hd hn, hdoc, Option.map_some, Option.getD_some, hmasked]
  exact ⟨hcontent, hcontent⟩

theorem WF.virtualContent_beyond (h : s.WF) (hhost : host.IsNormal) (hd : s.get? host = some d) {n : Nat}
    (hn : n < 2 ^ 64) (hle : (Region.scan d.text).length ≤ n) :
    s.virtualContent (VirtualUri.region host n).url = [] := by
  rw [virtualContent_region_of_open hhost hd hn, h.eq_make hd, HostDocument.getElem?_documents,
    List.getElem?_eq_none hle]
  rfl

/-- The address of a virtual document is read as that of the region with its index. -/
theorem WF.read_document (h : s.WF) (hhost : host.IsNormal) (hd : s.get? host = some d)
    (hsize : Text.byteLength d.text < 2 ^ 64) {i : Nat} {doc : VirtualDocument} (hi : d.documents[i]? = some doc) :
    VirtualUri.ofUrl? doc.uri = some (.region host i) ∧ s.virtualContent doc.uri = doc.content := by
  obtain ⟨hlt, hurl⟩ := HostDocument.uri_of_getElem?_documents (h.eq_make hd ▸ hi)
  -- there are fewer regions than bytes, so the index is one that can be read
  have hi64 : i < 2 ^ 64 := Nat.lt_trans hlt hsize
  have hgenuine : (VirtualUri.region host i).IsGenuine := ⟨hhost, hi64⟩
  rw [hurl]
  refine ⟨VirtualUri.ofUrl?_url hgenuine, ?_⟩
  rw [virtualContent_region_of_open hhost hd hi64, hi]
  rfl

end Open

/-- The views of a document agree. Let a session have come about in any way. If a document is open in
it, then under the address of a region stands the interior of the region of the text with that index,
or nothing if there is none; the masked text is as long as the text, and at every region holds what
stands under the address of that region; and wherever a virtual document is found, its address is read
as that of the region with its index, and its content stands under its address. If the document is not
open, nothing stands under any of these addresses. -/
theorem views_agree (history : List Step) (host : Url) (hhost : host.IsNormal) :
    let s := run {} history
    (∀ d, s.get? host = some d → Text.byteLength d.text < 2 ^ 64 →
      ∃ whole, (VirtualUri.masked host).toUrl? = some whole ∧
        Text.byteLength (s.virtualContent whole) = Text.byteLength d.text ∧
        (∀ n < 2 ^ 64, ∃ u, (VirtualUri.region host n).toUrl? = some u ∧
          (∀ r, (Region.scan d.text)[n]? = some r →
            Text.slice? d.text r.start r.stop = some (s.virtualContent u) ∧
              Text.slice? (s.virtualContent whole) r.start r.stop = some (s.virtualContent u)) ∧
          ((Region.scan d.text).length ≤ n → s.virtualContent u = [])) ∧
        ∀ u doc, d.document? u = some doc → (∃ i : Nat, d.documents[i]? = some doc) ∧
          ∀ i : Nat, d.documents[i]? = some doc →
            VirtualUri.ofUrl? u = some (.region host i) ∧ s.virtualContent u = doc.content) ∧
    (s.get? host = none →
      ∀ v : VirtualUri, v.IsGenuine → v.host = host → ∃ u, v.toUrl? = some u ∧ s.virtualContent u = []) := by
  intro s
  have hwf : s.WF := run_wf history
  constructor
  · intro d hd hsize
    have hwhole := virtualContent_masked_of_open hhost hd
    refine ⟨(VirtualUri.masked host).url, VirtualUri.toUrl?_eq _, ?_, ?_, ?_⟩
    · rw [hwhole]
      exact Mask.byteLength_mask ..
    · intro n hn
      refine ⟨(VirtualUri.region host n).url, VirtualUri.toUrl?_eq _, ?_, hwf.virtualContent_beyond hhost hd hn⟩
      intro r hr
      rw [hwhole]
      exact hwf.slice?_region hhost hd hn hr
    · intro u doc hfound
      have hmem : doc ∈ d.documents := List.mem_of_find?_eq_some hfound
      have huri : doc.uri = u := by simpa using List.find?_some hfound
      subst huri
      exact ⟨List.mem_iff_getElem?.1 hmem, fun i hi => hwf.read_document hhost hd hsize hi⟩
  · rintro hnone v hv rfl
    refine ⟨v.url, v.toUrl?_eq, ?_⟩
    cases v with
    | masked host => rw [s.virtualContent_masked hv, show s.get? host = none from hnone]; rfl
    | region host n => rw [s.virtualContent_region hv.1 hv.2, show s.get? host = none from hnone]; rfl

/-- The second of two regions, with characters of several bytes in it and in front of it, beside a
document that was closed. -/
theorem views_agree_two_regions :
    let host : Url := { scheme := ['f', 'i', 'l', 'e'], host := some [], path := ['/', 'a'] }
    let other : Url := { scheme := ['f', 'i', 'l', 'e'], host := some [], path := ['/', 'b'] }
    let t : Text := ['é', ' ', 'U', 'I', '!', '{', 'a', '}', ' ', 'U', 'I', '!', '(', '😀', 'b', ')']
    let s := run {} [.put other ['U', 'I', '!', '{', '}'] 1, .close other, .put host t 2]
    (∃ whole u, (VirtualUri.masked host).toUrl? = some whole ∧ (VirtualUri.region host 1).toUrl? = some u ∧
      Text.byteLength (s.virtualContent whole) = 20 ∧ s.virtualContent u = ['😀', 'b'] ∧
      Text.slice? (s.virtualContent whole) 14 19 = some (s.virtualContent u)) ∧
    (∃ d u doc, s.get? host = some d ∧ d.document? u = some doc ∧ VirtualUri.ofUrl? u = some (.region host 1) ∧
      s.virtualContent u = doc.content) ∧
    ∃ u, (VirtualUri.masked other).toUrl? = some u ∧ s.virtualContent u = [] := by
  intro host other t s
  have hhost : host.IsNormal := by decide +kernel
  have hother : other.IsNormal := by decide +kernel
  have hd : s.get? host = some (HostDocument.make host t 2) := (get?_put ..).trans (if_pos rfl)
  have hnone : s.get? other = none :=
    ((get?_put ..).trans (if_neg (by decide))).trans ((get?_erase ..).trans (if_pos rfl))
  have hscan : (Region.scan t)[1]? = some ⟨14, 19⟩ := by decide +kernel
  have hslice : Text.slice? t 14 19 = some ['😀', 'b'] := by decide +kernel
  obtain ⟨whole, hwhole, hlength, hregions, hfound⟩ :=
    (views_agree _ host hhost).1 _ hd (by decide +kernel)
  obtain ⟨u, hu, hregion, -⟩ := hregions 1 (by decide)
  obtain ⟨hinner, hplace⟩ := hregion ⟨14, 19⟩ hscan
  refine ⟨⟨whole, u, hwhole, hu, hlength, ?_, hplace⟩, ?_, ?_⟩
  · exact (Option.some.inj (hslice.symm.trans hinner)).symm
  · let doc : VirtualDocument := ⟨(VirtualUri.region host 1).url, ⟨14, 19⟩, ['😀', 'b']⟩
    have hdoc : (HostDocument.make host t 2).document? doc.uri = some doc := by decide +kernel
    have hindex : (HostDocument.make host t 2).documents[1]? = some doc := by decide +kernel
    obtain ⟨hread, hcontent⟩ := (hfound doc.uri doc hdoc).2 1 hindex
    exact ⟨_, doc.uri, doc, hd, hdoc, hread, hcontent⟩
  · exact (views_agree _ other hother).2 hnone (.masked other) hother rfl

end Session

end EmbeddedMarkup
