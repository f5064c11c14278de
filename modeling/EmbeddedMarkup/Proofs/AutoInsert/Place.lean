/-
Where an insertion goes. The trigger in a list of changes is found by `detect?` without the document: its
position is reckoned by `positionAfter` from the start of the last change and the text that was typed. In
the document that the changes make, this is the place right behind the typed text, also when the change
began beyond the end of its line. It is no place at all when the last change was not carried out, so that
nothing is put off for such a change.
-/
import EmbeddedMarkup.Proofs.Server.Documents
import EmbeddedMarkup.Proofs.Text.Order
import Mathlib.Data.List.Infix

namespace EmbeddedMarkup

namespace AutoInsert

/-! ## Positions behind a text -/

theorem positionAfter_of_mem (start : Position) {t : Text} (h : '\n' ∈ t) :
    positionAfter start t = ⟨start.line + Text.newlines t, Text.unitLength (t.rtakeWhile (· ≠ '\n'))⟩ := by
  unfold positionAfter
  rw [if_pos (List.contains_iff_mem.2 h)]
  rfl

theorem positionAfter_of_not_mem (start : Position) {t : Text} (h : '\n' ∉ t) :
    positionAfter start t = ⟨start.line, start.character + Text.unitLength t⟩ :=
  if_neg (mt List.contains_iff_mem.1 h)

/-- `positionAfter` counts the position behind a text from the start of the text. -/
theorem positionAfter_eq_plus (start : Position) (t : Text) : positionAfter start t = start.plus t.endPosition := by
  by_cases h : '\n' ∈ t
  · have hline : t.endPosition.line ≠ 0 := fun h0 => List.count_eq_zero.1 h0 h
    rw [positionAfter_of_mem start h, Position.plus, if_neg hline]
    rfl
  · rw [positionAfter_of_not_mem start h, Text.endPosition_of_not_mem h]
    rfl

theorem line_positionAfter (start : Position) (t : Text) :
    (positionAfter start t).line = start.line + Text.newlines t := by
  rw [positionAfter_eq_plus]
  rfl

/-- Behind a text with a line feed only the line of the start matters. -/
theorem positionAfter_eq_endPosition {start : Position} {a t : Text} (hline : start.line = Text.newlines a)
    (h : '\n' ∈ t) : positionAfter start t = Text.endPosition (a ++ t) := by
  rw [positionAfter_of_mem start h, Text.endPosition, Text.rtakeWhile_append_of_mem a h, Text.newlines_append, hline]

theorem positionAfter_endPosition (a t : Text) : positionAfter a.endPosition t = (a ++ t).endPosition := by
  rw [positionAfter_eq_plus, Text.endPosition_plus]

/-- What is typed at a position that is not between the two units of a character, in a line or behind its
end, is followed by the position that `positionAfter` gives. -/
theorem offset?_positionAfter {t : Text} {start : Position} {o : Nat}
    (ho : (LineTable.ofText t).offset? start = some o) (hpair : ¬ t.SplitsPair start) (new : Text) :
    ∃ a b, t = a ++ b ∧ o = Text.byteLength a ∧
      (LineTable.ofText (a ++ new ++ b)).offset? (positionAfter start new) = some (Text.byteLength (a ++ new)) := by
  obtain ⟨before, a, b, rest, rfl, hb, hline, hab, hrest, rfl, hunits⟩ := LineTable.exists_line_of_offset? ho
  have ha : '\n' ∉ a := fun h => hab (List.mem_append_left b h)
  refine ⟨before ++ a, b ++ rest, by simp, rfl, ?_⟩
  rcases hunits with hexact | ⟨hpast, rfl⟩ | ⟨x, c, rfl, hc, hinside⟩
  · have hstart : start = Text.endPosition (before ++ a) := by
      rw [Text.endPosition_append hb ha, hline, hexact]
    rw [hstart, positionAfter_endPosition, LineTable.offset?_endPosition]
  · by_cases hnew : '\n' ∈ new
    · have hlines : start.line = Text.newlines (before ++ a) := by
        rw [Text.newlines_append, Text.newlines_eq_zero ha, hline, Nat.add_zero]
      rw [positionAfter_eq_endPosition hlines hnew, LineTable.offset?_endPosition]
    · -- the new text has become the end of the line, and the position is still behind that
      have hfront : '\n' ∉ a ++ new := by simp [ha, hnew]
      have hle : Text.unitLength (a ++ new) ≤ start.character + Text.unitLength new := by
        rw [Text.unitLength_append]; omega
      have hoff := LineTable.offset?_line hb (a ++ new ++ rest) (start.character + Text.unitLength new)
      rw [Text.takeWhile_append_of_not_mem hfront, hrest, List.append_nil, Line.bytesToColumn_of_le hle,
        ← Text.byteLength_append, hline] at hoff
      rw [positionAfter_of_not_mem start hnew]
      simpa using hoff
  · refine absurd ⟨before ++ x, c, b ++ rest, by simp, hc, ?_⟩ hpair
    have hx : '\n' ∉ x := fun h => ha (List.mem_append_left [c] h)
    rw [Text.endPosition_append hb hx, hline, ← hinside]

/-! ## Triggers -/

/-- A trigger comes from a last change that replaces nothing, and stands behind the text of that change. -/
theorem detect?_eq_some {init : List Change} {last : Change} {reason : ChangeReason} {settings : AutoInsertSettings}
    {trigger : Trigger} (h : detect? (init ++ [last]) reason settings = some trigger) :
    ∃ start, last.range = some ⟨start, start⟩ ∧ trigger.position = positionAfter start last.text := by
  unfold detect? at h
  rw [List.getLast?_concat] at h
  split at h
  · cases h
  · dsimp only [Option.bind_eq_bind, Option.bind_some, pure_bind] at h
    obtain ⟨⟨start, stop⟩, hrange, h⟩ := Option.bind_eq_some_iff.1 h
    split at h
    · cases h
    · rename_i hreplaces
      obtain ⟨kind, -, h⟩ := Option.bind_eq_some_iff.1 h
      split at h
      · cases h
      · cases h
        cases not_not.1 (not_or.1 hreplaces).1
        exact ⟨start, hrange, rfl⟩

end AutoInsert

/-- `Server.schedule` puts nothing off for a trigger outside of all regions. -/
theorem Server.schedule_eq_self {s : Server} {d : HostDocument} {changes : List Change}
    (h : ∀ trigger, AutoInsert.detect? changes .edit s.settings.autoInsert = some trigger →
      d.lines.offset? trigger.position = none) : s.schedule d changes = s := by
  unfold schedule
  dsimp only
  split
  · rfl
  · rename_i trigger htrigger
    rw [if_neg]
    unfold HostDocument.regionAt?
    simp [h trigger htrigger]

namespace AutoInsert

/-- A trigger stands right behind what was typed. Let the last of a list of changes be one in which `detect?`
finds a trigger, and let it start at a position that has an offset in the text left by the others and does
not lie between the two units of a character; it may lie beyond the end of its line. Then the typed text
stands at that offset in the new text, and the position of the trigger has the offset behind it. If the
start of the last change has no offset, the change is not carried out, the position of the trigger has no
offset either, and a server that is told of the changes by `Server.changed` puts nothing off. -/
theorem trigger_behind_typed (t : Text) (init : List Change) (last : Change) (reason : ChangeReason)
    (settings : AutoInsertSettings) (trigger : Trigger)
    (h : detect? (init ++ [last]) reason settings = some trigger) :
    let before := Change.applyAll t init
    let after := Change.applyAll t (init ++ [last])
    ∃ start, last.range = some ⟨start, start⟩ ∧
      (∀ o, (LineTable.ofText before).offset? start = some o → ¬ before.SplitsPair start →
        Text.slice? after o (o + Text.byteLength last.text) = some last.text ∧
          (LineTable.ofText after).offset? trigger.position = some (o + Text.byteLength last.text)) ∧
      ((LineTable.ofText before).offset? start = none →
        after = before ∧ (LineTable.ofText after).offset? trigger.position = none ∧
          ∀ (s : Server) (d : ChangedDocument) (host : HostDocument), s.session.get? d.uri = some host →
            host.text = t → d.changes = init ++ [last] → (s.changed d).1.debouncer = (s.debouncer.cancel d.uri).1) := by
  intro before after
  obtain ⟨start, hrange, hposition⟩ := detect?_eq_some h
  refine ⟨start, hrange, fun o ho hpair => ?_, fun hnone => ?_⟩
  · obtain ⟨a, b, hbefore, rfl, hoff⟩ := offset?_positionAfter ho hpair last.text
    rw [hbefore] at ho
    have hafter : after = a ++ last.text ++ b := by
      rw [← Change.apply_of_offset? hrange ho, ← hbefore]
      exact Change.applyAll_concat t init last
    rw [hafter, hposition, ← Text.byteLength_append]
    exact ⟨Text.slice?_append a last.text b, hoff⟩
  · have hafter : after = before :=
      (Change.applyAll_concat t init last).trans (Change.apply_of_offset?_none hrange hnone)
    have hbeyond : (LineTable.ofText after).offset? (positionAfter start last.text) = none := by
      rw [LineTable.offset?_eq_none_iff] at hnone ⊢
      rw [hafter, line_positionAfter]
      omega
    refine ⟨hafter, hposition ▸ hbeyond, ?_⟩
    rintro s d host hhost rfl hchanges
    -- whatever the settings, the server looks for a trigger at the same position
    rw [Server.changed_of_some hhost, hchanges]
    dsimp only
    rw [Server.schedule_eq_self, Server.closeVanished_debouncer]
    · rfl
    · intro trigger' htrigger'
      obtain ⟨start', hrange', hposition'⟩ := detect?_eq_some htrigger'
      rw [hrange] at hrange'
      cases hrange'
      rw [hposition']
      exact hbeyond

/-- A text typed beyond the end of a line that another change has made, behind a character of two units;
and one typed in a line that does not exist. -/
theorem trigger_behind_typed_beyond :
    let uri : Url := { scheme := ['f', 'i', 'l', 'e'], host := some [], path := ['/', 'a'] }
    let t : Text := ['a', 'b']
    let first : Change := ⟨some ⟨⟨0, 1⟩, ⟨0, 1⟩⟩, none, ['😀', '\n']⟩
    let last : Change := ⟨some ⟨⟨0, 9⟩, ⟨0, 9⟩⟩, some 0, ['é', '>']⟩
    let far : Change := ⟨some ⟨⟨7, 0⟩, ⟨7, 0⟩⟩, none, ['>']⟩
    let s : Server := { session := (Session.put {} uri t 1).1 }
    (detect? [first, last] .edit {} = some ⟨.close, ⟨0, 11⟩, ['é', '>']⟩ ∧
      (LineTable.ofText (Change.applyAll t [first, last])).offset? ⟨0, 11⟩ = some 8 ∧
      Text.slice? (Change.applyAll t [first, last]) 5 8 = some ['é', '>']) ∧
    detect? [first, far] .edit {} = some ⟨.close, ⟨7, 1⟩, ['>']⟩ ∧
      (LineTable.ofText (Change.applyAll t [first, far])).offset? ⟨7, 1⟩ = none ∧
      (s.changed ⟨uri, 2, [first, far]⟩).1.debouncer = (s.debouncer.cancel uri).1 := by
  intro uri t first last far s
  have hlast : detect? [first, last] .edit {} = some ⟨.close, ⟨0, 11⟩, ['é', '>']⟩ := by decide +kernel
  have hfar : detect? [first, far] .edit {} = some ⟨.close, ⟨7, 1⟩, ['>']⟩ := by decide +kernel
  have hpair : ¬ (Change.applyAll t [first]).SplitsPair ⟨0, 9⟩ := by
    rintro ⟨a, c, b, h, -, hp⟩
    have hfree : ∀ x ∈ (Change.applyAll t [first]).inits, 9 ≠ (Text.endPosition x).character + 1 := by decide +kernel
    exact hfree a ((List.mem_inits ..).2 ⟨c :: b, h.symm⟩) (congrArg Position.character hp)
  obtain ⟨_, hrange, hplace, -⟩ := trigger_behind_typed t [first] last .edit {} _ hlast
  cases hrange
  obtain ⟨hslice, hoffset⟩ := hplace 5 (by decide +kernel) hpair
  obtain ⟨_, hrange, -, hnowhere⟩ := trigger_behind_typed t [first] far .edit {} _ hfar
  cases hrange
  obtain ⟨-, hnone, hserver⟩ := hnowhere (by decide +kernel)
  have hhost : s.session.get? uri = some (HostDocument.make uri t 1) := (Session.get?_put ..).trans (if_pos rfl)
  exact ⟨⟨hlast, hoffset, hslice⟩, hfar, hnone, hserver s ⟨uri, 2, [first, far]⟩ _ hhost rfl rfl⟩

end AutoInsert

end EmbeddedMarkup
