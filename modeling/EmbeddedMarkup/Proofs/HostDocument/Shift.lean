/-
Positions in a virtual document, counted from the start of its region. The host text in front of a place
in a virtual document is what stands in front of the region, and then what stands in front of the place;
so `toHostPosition?` gives the position in the virtual document with lines, and on the first line
columns, counted from the position at which the region begins: the sum `Position.plus` of the two.
-/
import EmbeddedMarkup.Proofs.HostDocument.Correspondence
import EmbeddedMarkup.Proofs.Text.Order

namespace EmbeddedMarkup.HostDocument

section Cuts

variable {d : HostDocument} {doc : VirtualDocument} {before after a b : Text}

theorem position?_start (h : doc.LiesIn d.text before after) :
    d.lines.position? doc.region.start = some (Text.endPosition before) := by
  rw [lines, h.text, h.start, List.append_assoc, LineTable.position?_append]

theorem offset?_cut (hc : doc.content = a ++ b) :
    doc.lines.offset? (Text.endPosition a) = some (Text.byteLength a) := by
  rw [VirtualDocument.lines, hc, LineTable.offset?_endPosition]

theorem toHostPosition?_endPosition (h : doc.LiesIn d.text before after) (hc : doc.content = a ++ b) :
    d.toHostPosition? doc (Text.endPosition a) = some ((Text.endPosition before).plus (Text.endPosition a)) := by
  rw [toHostPosition?_cut h hc (offset?_cut hc), Text.endPosition_plus]

/-- `toHostRange?` takes the range between two cuts of the content to that between the same cuts of the host. -/
theorem toHostRange?_cuts {m : Text} (h : doc.LiesIn d.text before after) (hc : doc.content = a ++ m ++ b) :
    d.toHostRange? doc ⟨Text.endPosition a, Text.endPosition (a ++ m)⟩ =
      some ⟨Text.endPosition (before ++ a), Text.endPosition (before ++ (a ++ m))⟩ := by
  have hc' : doc.content = a ++ (m ++ b) := by rw [hc, List.append_assoc]
  unfold toHostRange?
  rw [toHostPosition?_cut h hc' (offset?_cut hc'), toHostPosition?_cut h hc (offset?_cut hc)]
  rfl

theorem span?_cuts {m : Text} (hc : doc.content = a ++ m ++ b) :
    doc.lines.span? ⟨Text.endPosition a, Text.endPosition (a ++ m)⟩ =
      some (Text.byteLength a, Text.byteLength (a ++ m)) := by
  have hle : Text.byteLength a ≤ Text.byteLength (a ++ m) := by rw [Text.byteLength_append]; omega
  unfold LineTable.span?
  rw [offset?_cut (hc.trans (List.append_assoc ..)), offset?_cut hc]
  exact if_pos hle

end Cuts

/-- The way from a virtual document to the host, `toHostPosition?`, is a shift by lines and columns. Let a
region begin at a position of the host. Then an exact position on the first line of its virtual document leads
to the position as many columns further on the same line, and one on a later line to the same column as many
lines below. Hence a range between two exact positions in order leads to a range in order, and both cover the
same text. -/
theorem shifted_into_host (uri : Url) (t : Text) (v : Int) (doc : VirtualDocument)
    (hdoc : doc ∈ (make uri t v).documents) :
    ∃ start, (make uri t v).lines.position? doc.region.start = some start ∧
      (∀ l c, doc.content.IsExact ⟨l, c⟩ → (make uri t v).toHostPosition? doc ⟨l, c⟩ =
        some (if l = 0 then ⟨start.line + l, start.character + c⟩ else ⟨start.line + l, c⟩)) ∧
      ∀ r : Range, doc.content.IsExact r.start → doc.content.IsExact r.stop → r.start ≤ r.stop →
        ∃ r' s e covered, (make uri t v).toHostRange? doc r = some r' ∧ r'.start ≤ r'.stop ∧
          doc.lines.span? r = some (s, e) ∧ Text.slice? doc.content s e = some covered ∧
          (make uri t v).lines.span? r' = some (doc.region.start + s, doc.region.start + e) ∧
          Text.slice? t (doc.region.start + s) (doc.region.start + e) = some covered := by
  obtain ⟨before, after, h⟩ := exists_liesIn hdoc
  have hlies : doc.LiesIn (make uri t v).text before after := h
  refine ⟨_, position?_start hlies, fun l c hexact => ?_, fun r hstart hstop hle => ?_⟩
  · obtain ⟨a, b, hc, ha⟩ := hexact
    rw [ha, toHostPosition?_endPosition hlies hc, ← ha, Position.plus]
    split <;> rfl
  · obtain ⟨start, stop⟩ := r
    obtain ⟨a, b, hc, rfl⟩ := hstart
    obtain ⟨a', b', hc', rfl⟩ := hstop
    -- positions in order are those of cuts in order
    have hbytes := (Text.endPosition_le_iff (hc.symm.trans hc')).1 hle
    obtain ⟨m, rfl, rfl⟩ :=
      Text.exists_middle Text.byteLength_append Text.byteLength_cons_pos (hc.symm.trans hc') hbytes
    have hrange := toHostRange?_cuts hlies hc'
    have hspan := span?_cuts hc'
    refine ⟨_, _, _, m, hrange, ?_, hspan, ?_, ?_, ?_⟩
    · rw [← List.append_assoc]
      exact Text.endPosition_le_append ..
    · rw [hc', Text.slice?_append]
    · rw [span?_toHostRange? hlies hrange, hspan, Option.map_some]
    · have hslice := Text.slice?_append (before ++ a) m (b' ++ after)
      rw [h.start, ← Text.byteLength_append, ← Text.byteLength_append, h.text, hc']
      simpa using hslice

/-- A region that begins behind a character of two units and has two lines: the column moves on the first
of them, and a range from the first to the second covers what it covered. -/
theorem shifted_into_host_two_lines :
    let uri : Url := { scheme := ['f', 'i', 'l', 'e'], host := some [], path := ['/', 'a'] }
    let t : Text := ['x', '\n', '😀', 'U', 'I', '!', '{', 'a', '😀', 'b', '\n', 'c', 'd', '}']
    let doc : VirtualDocument := ⟨(VirtualUri.region uri 0).url, ⟨10, 19⟩, ['a', '😀', 'b', '\n', 'c', 'd']⟩
    doc ∈ (make uri t 1).documents ∧ (make uri t 1).lines.position? 10 = some ⟨1, 6⟩ ∧
      (make uri t 1).toHostPosition? doc ⟨0, 3⟩ = some ⟨1, 9⟩ ∧
      (make uri t 1).toHostPosition? doc ⟨1, 1⟩ = some ⟨2, 1⟩ ∧
      ∃ r' s e, (make uri t 1).toHostRange? doc ⟨⟨0, 3⟩, ⟨1, 1⟩⟩ = some r' ∧ r'.start ≤ r'.stop ∧
        (make uri t 1).lines.span? r' = some (s, e) ∧ Text.slice? t s e = some ['b', '\n', 'c'] := by
  intro uri t doc
  have hdoc : doc ∈ (make uri t 1).documents := by
    show doc ∈ documentsFrom uri t 0 (Region.scan t)
    rw [show Region.scan t = [⟨10, 19⟩] by decide +kernel, documentsFrom, VirtualDocument.make?_eq,
      show Text.slice? t 10 19 = some ['a', '😀', 'b', '\n', 'c', 'd'] by decide +kernel]
    exact List.mem_cons_self ..
  have hfirst : doc.content.IsExact ⟨0, 3⟩ := ⟨['a', '😀'], ['b', '\n', 'c', 'd'], rfl, rfl⟩
  have hsecond : doc.content.IsExact ⟨1, 1⟩ := ⟨['a', '😀', 'b', '\n', 'c'], ['d'], rfl, rfl⟩
  obtain ⟨start, hstart, hposition, hrange⟩ := shifted_into_host uri t 1 doc hdoc
  obtain rfl : start = ⟨1, 6⟩ :=
    Option.some.inj (hstart.symm.trans (by decide +kernel : (make uri t 1).lines.position? 10 = some ⟨1, 6⟩))
  obtain ⟨r', s, e, covered, hr, hle, hs, hcovered, hspan, hslice⟩ :=
    hrange ⟨⟨0, 3⟩, ⟨1, 1⟩⟩ hfirst hsecond (by decide)
  have hse : doc.lines.span? ⟨⟨0, 3⟩, ⟨1, 1⟩⟩ = some (5, 8) := by decide +kernel
  rw [hse, Option.some.injEq, Prod.mk.injEq] at hs
  obtain ⟨rfl, rfl⟩ := hs
  have htext : Text.slice? doc.content 5 8 = some ['b', '\n', 'c'] := by decide +kernel
  rw [hcovered.symm.trans htext] at hslice
  exact ⟨hdoc, hstart, hposition 0 3 hfirst, hposition 1 1 hsecond, r', _, _, hr, hle, hspan, hslice⟩

end EmbeddedMarkup.HostDocument
