/-
The routing of questions. Where a position leads is decided by the host document as it is when the
question comes, and by nothing else: to no virtual document, and then the markup service is not called
at all, or to the only one whose region holds the position. What happens to the session while the
service answers can take the result away, by giving the document another `version?` or closing it, and
has no other part in it: the result is `Query.answer?` of the document as it was.
-/
import EmbeddedMarkup.Proofs.HostDocument.Correspondence
import EmbeddedMarkup.Proofs.Session.Answers
import EmbeddedMarkup.Proofs.Session.Views

namespace EmbeddedMarkup

/-- The version that a session holds at an address. -/
def Session.version? (s : Session) (uri : Url) : Option Int :=
  (s.get? uri).map (·.version)

/-- Whether a position leads nowhere: its document is not open, does not have its line, or has no region
that holds its offset. -/
def Session.Misses (s : Session) (uri : Url) (p : Position) : Prop :=
  s.get? uri = none ∨ ∃ d, s.get? uri = some d ∧ (Text.newlines d.text < p.line ∨
    ∃ o, d.lines.offset? p = some o ∧ ∀ r ∈ d.regions, r.contains o = false)

/-- The answer to a query about a position in a host document, as long as the document is current. -/
def Query.answer? (q : Query) (d : HostDocument) (p : Position) (reply : Option q.Reply) : Option q.Reply :=
  (d.documentAt? p).bind fun found => reply.bind (q.toHost? d found.1)

namespace HostDocument

/-! ## The virtual document at a position -/

theorem exists_document_of_region (uri : Url) {t : Text} (v : Int) {r : Region} (hr : r ∈ Region.scan t) :
    ∃ doc ∈ (make uri t v).documents, doc.region = r := by
  obtain ⟨n, hn⟩ := List.mem_iff_getElem?.1 hr
  obtain ⟨content, -, hdoc⟩ := getElem?_documents_of_region uri v hn
  exact ⟨_, List.mem_of_getElem? hdoc, rfl⟩

/-- Two virtual documents that hold one offset are the same. -/
theorem eq_of_contains {uri : Url} {t : Text} {v : Int} {doc doc' : VirtualDocument} {o : Nat}
    (hdoc : doc ∈ (make uri t v).documents) (ho : doc.region.contains o = true)
    (hdoc' : doc' ∈ (make uri t v).documents) (ho' : doc'.region.contains o = true) : doc' = doc := by
  have hfound := findSome?_ofHostOffset? (documents_pairwise uri t v) hdoc ho
  rw [findSome?_ofHostOffset? (documents_pairwise uri t v) hdoc' ho'] at hfound
  cases hfound
  rfl

/-- `documentAt?` leads from a position whose offset a virtual document holds to an exact position in it. -/
theorem documentAt?_of_contains {uri : Url} {t : Text} {v : Int} {doc : VirtualDocument} {p : Position} {o : Nat}
    (hdoc : doc ∈ (make uri t v).documents) (ho : (make uri t v).lines.offset? p = some o)
    (hin : doc.region.contains o = true) :
    ∃ pos, (make uri t v).documentAt? p = some (doc, pos) ∧ doc.content.IsExact pos ∧
      doc.lines.offset? pos = some (o - doc.region.start) := by
  obtain ⟨before, after, h⟩ := exists_liesIn hdoc
  obtain ⟨x, y, ht, rfl⟩ := LineTable.exists_cut_of_offset? ho
  obtain ⟨a, b, rfl, hc, rfl⟩ := exists_cut_of_contains h ht hin
  refine ⟨Text.endPosition a, ?_, ⟨a, b, hc, rfl⟩, ?_⟩
  · unfold documentAt?
    rw [ho]
    simp only [Option.bind_eq_bind, Option.bind_some]
    rw [findSome?_ofHostOffset? (documents_pairwise uri t v) hdoc hin, Option.bind_some]
    simp only
    rw [inner_offset_cut h, VirtualDocument.lines, hc, LineTable.position?_append]
    rfl
  · rw [inner_offset_cut h, VirtualDocument.lines, hc, LineTable.offset?_endPosition]

end HostDocument

namespace Session

/-! ## Inquiries -/

theorem inquire?_eq (s : Session) (uri : Url) (p : Position) :
    s.inquire? uri p =
      (s.get? uri).bind fun d => (d.documentAt? p).map fun found => ⟨d, found.1, found.2⟩ := by
  unfold inquire?
  cases s.get? uri with
  | none => rfl
  | some d =>
    rw [Option.bind_eq_bind, Option.bind_some, Option.bind_some]
    cases d.documentAt? p <;> rfl

theorem inquire?_of_misses {s : Session} (h : s.WF) {uri : Url} {p : Position} (hm : s.Misses uri p) :
    s.inquire? uri p = none := by
  cases hi : s.inquire? uri p with
  | none => rfl
  | some i =>
    obtain ⟨hhost, hat⟩ := inquire?_eq_some hi
    obtain ⟨hdoc, o, ho, hin, -⟩ := HostDocument.documentAt?_eq_some hat
    -- an inquiry has an open document, an offset in it and a region that holds the offset
    rcases hm with hnone | ⟨d, hd, hline | ⟨o', ho', hfree⟩⟩
    · rw [hnone] at hhost
      cases hhost
    · rw [hd] at hhost
      cases hhost
      rw [HostDocument.lines, LineTable.offset?_eq_none_iff.2 hline] at ho
      cases ho
    · rw [hd] at hhost
      cases hhost
      rw [ho'] at ho
      cases ho
      have hmake := h.eq_make hd
      rw [hmake] at hdoc hfree
      rw [hfree _ (HostDocument.mem_documents_make hdoc).1] at hin
      cases hin

theorem not_misses_of_regionAt? {s : Session} {uri : Url} {d : HostDocument} {p : Position} (hd : s.get? uri = some d)
    (hp : (d.regionAt? p).isSome = true) : ¬ s.Misses uri p := by
  obtain ⟨r, hr⟩ := Option.isSome_iff_exists.1 hp
  obtain ⟨o, ho, hr⟩ := Option.bind_eq_some_iff.1 hr
  rintro (hnone | ⟨d', hd', hline | ⟨o', ho', hfree⟩⟩)
  · rw [hd] at hnone
    cases hnone
  · rw [hd] at hd'
    cases hd'
    rw [HostDocument.lines, LineTable.offset?_eq_none_iff.2 hline] at ho
    cases ho
  · rw [hd] at hd'
    cases hd'
    rw [ho] at ho'
    cases ho'
    have hin : r.contains o = true := by simpa using List.find?_some hr
    rw [hfree r (List.mem_of_find?_eq_some hr)] at hin
    cases hin

theorem exists_inquiry {s : Session} (h : s.WF) {uri : Url} {p : Position} (hm : ¬ s.Misses uri p) :
    ∃ i o, s.inquire? uri p = some i ∧ s.get? uri = some i.host ∧ i.host.lines.offset? p = some o ∧
      i.target ∈ i.host.documents ∧ (∀ x ∈ i.host.documents, x.region.contains o = true ↔ x = i.target) ∧
      i.target.content.IsExact i.position ∧
      i.target.lines.offset? i.position = some (o - i.target.region.start) := by
  cases hd : s.get? uri with
  | none => exact absurd (.inl hd) hm
  | some d =>
    cases ho : d.lines.offset? p with
    | none => exact absurd (.inr ⟨d, hd, .inl (LineTable.offset?_eq_none_iff.1 ho)⟩) hm
    | some o =>
      have hmake := h.eq_make hd
      -- what is left of the three ways to miss is that no region holds the offset
      obtain ⟨r, hr, hin⟩ : ∃ r ∈ d.regions, r.contains o = true := by
        by_contra hno
        refine hm (.inr ⟨d, hd, .inr ⟨o, ho, fun r hr => ?_⟩⟩)
        rw [Bool.eq_false_iff]
        exact fun hin => hno ⟨r, hr, hin⟩
      rw [hmake] at hr ho
      obtain ⟨doc, hdoc, rfl⟩ := HostDocument.exists_document_of_region uri d.version hr
      obtain ⟨pos, hat, hexact, hoffset⟩ := HostDocument.documentAt?_of_contains hdoc ho hin
      rw [← hmake] at ho hat
      have honly : ∀ x ∈ d.documents, x.region.contains o = true ↔ x = doc := by
        intro x hx
        rw [hmake] at hx
        constructor
        · exact fun hx' => HostDocument.eq_of_contains hdoc hin hx hx'
        · rintro rfl
          exact hin
      rw [← hmake] at hdoc
      refine ⟨⟨d, doc, pos⟩, o, ?_, rfl, ho, hdoc, honly, hexact, hoffset⟩
      rw [s.inquire?_eq, hd, Option.bind_some, hat, Option.map_some]

theorem isCurrent_eq (s : Session) (uri : Url) (version : Int) :
    s.isCurrent uri version = decide (s.version? uri = some version) := by
  unfold isCurrent version?
  cases s.get? uri <;> simp

end Session

theorem Inquiry.settle_eq (i : Inquiry) (s : Session) (q : Query) (reply : Option q.Reply) :
    i.settle s q reply =
      if s.version? i.host.uri = some i.host.version then reply.bind (q.toHost? i.host i.target) else none := by
  unfold settle isCurrent
  rw [s.isCurrent_eq]
  by_cases h : s.version? i.host.uri = some i.host.version
  · simp [h]
  · simp [h]

namespace Query

/-! ## Outcomes -/

theorem calls_run (q : Query) (s : Session) (uri : Url) (p : Position) (steps : List Session.Step)
    (reply : Option q.Reply) :
    (q.run s uri p steps reply).calls = ((s.inquire? uri p).map (·.calls q)).getD [] := by
  unfold run
  cases s.inquire? uri p <;> rfl

/-- The `result` of a query: `answer?` for the host document as it was, unless the document has got another
version or was closed. -/
theorem result_run (q : Query) (s : Session) (uri : Url) (p : Position) (steps : List Session.Step)
    (reply : Option q.Reply) :
    (q.run s uri p steps reply).result =
      (s.get? uri).bind fun d => if (s.run steps).version? uri = some d.version then q.answer? d p reply else none := by
  unfold run answer?
  rw [s.inquire?_eq]
  cases hd : s.get? uri with
  | none => rfl
  | some d =>
    have huri : d.uri = uri := (Session.mem_of_get? hd).2
    rw [Option.bind_some, Option.bind_some]
    cases d.documentAt? p with
    | none => rw [Option.bind_none, ite_self]; rfl
    | some found =>
      rw [Option.bind_some, ← huri]
      exact Inquiry.settle_eq ..

end Query

namespace Session

/-- Questions are routed in isolation. In every session, a question about a position that it `Misses`
makes no call of the markup service and has no result. Any other makes two: to take notice of the
virtual document that holds the offset of the position, of which there is just one, and to answer the
query about that document, at the exact position in it that has the offset. The result is `answer?` of the
host document as it was, the position and the reply alone, except that there is none when the document
has got another version or was closed. So whatever was done to other documents, before or meanwhile,
calls and result are the same. -/
theorem routed_in_isolation (history : List Step) (q : Query) (uri : Url) (p : Position) (steps : List Step)
    (reply : Option q.Reply) :
    let s := run {} history
    let outcome := q.run s uri p steps reply
    (s.Misses uri p → outcome.calls = [] ∧ outcome.result = none) ∧
    (¬ s.Misses uri p → ∃ d o doc pos, s.get? uri = some d ∧ d.lines.offset? p = some o ∧ doc ∈ d.documents ∧
      (∀ x ∈ d.documents, x.region.contains o = true ↔ x = doc) ∧ doc.content.IsExact pos ∧
      doc.lines.offset? pos = some (o - doc.region.start) ∧ outcome.calls = [.sync doc, .ask doc q pos]) ∧
    (outcome.result =
      (s.get? uri).bind fun d => if (s.run steps).version? uri = some d.version then q.answer? d p reply else none) ∧
    ∀ history' steps', (run {} history').get? uri = s.get? uri →
      ((run {} history').run steps').version? uri = (s.run steps).version? uri →
      (q.run (run {} history') uri p steps' reply).calls = outcome.calls ∧
        (q.run (run {} history') uri p steps' reply).result = outcome.result := by
  intro s outcome
  have hwf : s.WF := run_wf history
  refine ⟨?_, ?_, q.result_run s uri p steps reply, ?_⟩
  · intro hm
    have hnone := inquire?_of_misses hwf hm
    constructor
    · rw [q.calls_run, hnone]
      rfl
    · simp only [outcome, Query.run, hnone]
  · intro hm
    obtain ⟨i, o, hi, hhost, ho, htarget, honly, hexact, hoffset⟩ := exists_inquiry hwf hm
    refine ⟨i.host, o, i.target, i.position, hhost, ho, htarget, honly, hexact, hoffset, ?_⟩
    rw [q.calls_run, hi]
    rfl
  · intro history' steps' hget hversion
    constructor
    · rw [q.calls_run, q.calls_run, inquire?_eq, hget, ← inquire?_eq]
    · rw [q.result_run, q.result_run, hget, hversion]

/-- A question about the second line of a region. Meanwhile another document changes, or is closed while
the one that was asked about is opened anew in its version: the result is the same. A question about a
line that does not exist is not passed on. -/
theorem routed_in_isolation_second_line :
    let uri : Url := { scheme := ['f', 'i', 'l', 'e'], host := some [], path := ['/', 'a'] }
    let other : Url := { scheme := ['f', 'i', 'l', 'e'], host := some [], path := ['/', 'b'] }
    let t : Text := ['x', ' ', 'U', 'I', '!', '{', 'a', '😀', '\n', 'b', '}', 'c']
    let s := run {} [.put other [] 3, .put uri t 1]
    let q : Query := .autoInsert .close
    let reply : Option q.Reply := some "x"
    (¬ s.Misses uri ⟨1, 0⟩ ∧ ∃ doc pos, doc.content.IsExact pos ∧
      (q.run s uri ⟨1, 0⟩ [.put other ['y'] 5] reply).calls = [.sync doc, .ask doc q pos]) ∧
    (q.run s uri ⟨1, 0⟩ [.close other, .put uri ['z'] 1] reply).result =
      (q.run s uri ⟨1, 0⟩ [.put other ['y'] 5] reply).result ∧
    s.Misses uri ⟨2, 0⟩ ∧ (q.run s uri ⟨2, 0⟩ [] reply).calls = [] := by
  intro uri other t s q reply
  have hd : s.get? uri = some (HostDocument.make uri t 1) := (get?_put ..).trans (if_pos rfl)
  have hmisses : ¬ s.Misses uri ⟨1, 0⟩ := by
    rintro (hnone | ⟨d, hd', h⟩)
    · rw [hd] at hnone
      cases hnone
    · rw [hd] at hd'
      cases hd'
      rcases h with hline | ⟨o, ho, hfree⟩
      · exact absurd hline (by decide)
      · have hoffset : (HostDocument.make uri t 1).lines.offset? ⟨1, 0⟩ = some 12 := by decide +kernel
        rw [hoffset] at ho
        cases ho
        have hregion : (⟨6, 13⟩ : Region) ∈ (HostDocument.make uri t 1).regions := by decide +kernel
        exact absurd (hfree _ hregion) (by decide)
  have hmisses' : s.Misses uri ⟨2, 0⟩ := .inr ⟨_, hd, .inl (by decide)⟩
  have hversion : (s.run [.close other, .put uri ['z'] 1]).version? uri =
      (s.run [.put other ['y'] 5]).version? uri := by
    decide +kernel
  obtain ⟨-, hcalls, -, htwo⟩ := routed_in_isolation _ q uri ⟨1, 0⟩ [.put other ['y'] 5] reply
  obtain ⟨d, o, doc, pos, -, -, -, -, hexact, -, hask⟩ := hcalls hmisses
  refine ⟨⟨hmisses, doc, pos, hexact, hask⟩, (htwo _ _ rfl hversion).2, hmisses', ?_⟩
  exact ((routed_in_isolation _ q uri ⟨2, 0⟩ [] reply).1 hmisses').1

end Session

end EmbeddedMarkup
