/-
Automatic insertions in the course of a `run`. Whatever is inserted stems from the change of its document
that came last, in what the events `told`: the document is still as that change left it, the insertion is
meant for that version and lies inside of one of its regions, and no change leads to more than one
insertion. All that is asked of the editor is that it is `orderly`, opening no document that is open;
events come in any order, and versions may repeat.
-/
import EmbeddedMarkup.Proofs.Protocol
import EmbeddedMarkup.Proofs.Server.Tickets
import EmbeddedMarkup.Server.Editor

namespace EmbeddedMarkup

/-! ## Open documents -/

namespace EditorStep

/-- The documents that are open after a step. No document may be opened that is open. -/
def openAfter? (isOpen : Url → Bool) : EditorStep → Option (Url → Bool)
  | opened d => if isOpen d.uri then none else some (Function.update isOpen d.uri true)
  | changed _ => some isOpen
  | closed uri => some (Function.update isOpen uri false)

/-- Whether `openAfter?` goes through: no document is opened that is open already. -/
def orderly (steps : List EditorStep) : Bool :=
  (steps.foldlM openAfter? fun _ => false).isSome

theorem openAfter?_of_ne {isOpen isOpen' : Url → Bool} {step : EditorStep} (h : step.openAfter? isOpen = some isOpen')
    {uri : Url} (hu : step.uri ≠ uri) : isOpen' uri = isOpen uri := by
  have hu : uri ≠ step.uri := Ne.symm hu
  cases step with
  | opened d =>
    simp only [openAfter?] at h
    split at h
    · cases h
    · cases h
      exact Function.update_of_ne hu ..
  | changed d => cases h; rfl
  | closed uri' =>
    cases h
    exact Function.update_of_ne hu ..

end EditorStep

namespace Server

variable {s : Server}

theorem orderly_told_of_append {w : Surroundings} {a b : List Event}
    (h : EditorStep.orderly (told w s (a ++ b)) = true) : EditorStep.orderly (told w s a) = true := by
  unfold EditorStep.orderly at h ⊢
  rw [told_append, List.foldlM_append] at h
  cases ha : (told w s a).foldlM EditorStep.openAfter? fun _ => false with
  | none => rw [ha] at h; cases h
  | some isOpen => rfl

/-- A step of the editor that opens only what is not open keeps the session among the open documents. -/
theorem isOpen_follow {isOpen isOpen' : Url → Bool} {step : EditorStep} (h : step.openAfter? isOpen = some isOpen')
    (hs : ∀ uri d, s.session.get? uri = some d → isOpen uri = true) :
    ∀ uri d, (s.follow step).1.session.get? uri = some d → isOpen' uri = true := by
  intro uri d hd
  by_cases hu : step.uri = uri
  · subst hu
    cases step with
    | opened d' =>
      simp only [EditorStep.openAfter?] at h
      split at h
      · cases h
      · cases h
        exact Function.update_self ..
    | changed d' =>
      cases h
      cases hg : s.session.get? d'.uri with
      | none =>
        rw [show s.follow (.changed d') = s.changed d' from rfl, changed_of_none hg] at hd
        exact absurd (hg.symm.trans hd) (by simp)
      | some host => exact hs _ host hg
    | closed uri' =>
      rw [show s.follow (.closed uri') = s.closed uri' from rfl, closed_session, Session.get?_erase] at hd
      simp [EditorStep.uri] at hd
  · rw [follow_get? hu] at hd
    rw [EditorStep.openAfter?_of_ne h hu]
    exact hs uri d hd

/-- The session holds only documents that are open. -/
theorem isOpen_of_get? (w : Surroundings) {events : List Event} {isOpen : Url → Bool}
    (h : (told w {} events).foldlM EditorStep.openAfter? (fun _ => false) = some isOpen) :
    ∀ uri d, (run w {} events).1.session.get? uri = some d → isOpen uri = true := by
  induction events using List.reverseRecOn generalizing isOpen with
  | nil => intro uri d hd; cases hd
  | append_singleton events e ih =>
    intro uri d hd
    rw [told_snoc, List.foldlM_append] at h
    obtain ⟨isOpen₁, h₁, h₂⟩ := Option.bind_eq_some_iff.1 h
    rw [run_snoc] at hd
    rcases (run w {} events).1.step_cases w e with ⟨htold, hspends⟩ | ⟨step, htold, hstep⟩
    · rw [htold] at h₂
      cases h₂
      dsimp only at hd
      rw [hspends.session] at hd
      exact ih h₁ uri d hd
    · rw [htold] at h₂
      dsimp only at hd
      rw [hstep] at hd
      have hopen : step.openAfter? isOpen₁ = some isOpen := by simpa using h₂
      exact isOpen_follow hopen (ih h₁) uri d hd

/-- What is opened was not in the session. -/
theorem get?_of_opened (w : Surroundings) {events : List Event} {e : Event} {d : OpenedDocument}
    (h : EditorStep.orderly (told w {} (events ++ [e])) = true)
    (htold : (run w {} events).1.told? e = some (.opened d)) : (run w {} events).1.session.get? d.uri = none := by
  unfold EditorStep.orderly at h
  rw [told_snoc, htold, List.foldlM_append] at h
  cases hopen : (told w {} events).foldlM EditorStep.openAfter? fun _ => false with
  | none => rw [hopen] at h; cases h
  | some isOpen =>
    rw [hopen] at h
    cases hg : (run w {} events).1.session.get? d.uri with
    | none => rfl
    | some host =>
      have hlive := isOpen_of_get? w hopen d.uri host hg
      simp [EditorStep.openAfter?, hlive] at h

/-! ## The change that came last -/

/-- That the change of which `c` tells after `before` is the last thing that happens to its document in
`since`: nothing changes or closes it, and it stays as the change left it. -/
structure Lasts (w : Surroundings) (before : List Event) (c : Event) (since : List Event) (d : ChangedDocument)
    (state : HostDocument) : Prop where
  tells : (run w {} before).1.told? c = some (.changed d)
  untouched : ∀ step ∈ told w (run w {} (before ++ [c])).1 since, ¬ step.Touches d.uri
  live : ∀ part, part <+: since → (run w {} (before ++ c :: part)).1.session.get? d.uri = some state

theorem Lasts.snoc {w : Surroundings} {before since : List Event} {c e : Event} {d : ChangedDocument}
    {state : HostDocument} (h : Lasts w before c since d state)
    (horderly : EditorStep.orderly (told w {} (before ++ c :: since ++ [e])) = true)
    (huntouched : ∀ step, (run w {} (before ++ c :: since)).1.told? e = some step → ¬ step.Touches d.uri) :
    Lasts w before c (since ++ [e]) d state := by
  refine ⟨h.tells, fun step hstep => ?_, fun part hpart => ?_⟩
  · have hrun : ((run w {} (before ++ [c])).1.run w since).1 = (run w {} (before ++ c :: since)).1 := by
      rw [List.append_cons before c since, run_append w {} (before ++ [c]) since]
    rw [told_snoc, hrun, List.mem_append] at hstep
    rcases hstep with hstep | hstep
    · exact h.untouched step hstep
    · exact huntouched step (Option.mem_toList.1 hstep)
  · rcases List.prefix_concat_iff.1 hpart with rfl | hpart
    · have hlive := h.live since List.prefix_rfl
      rw [← List.cons_append, ← List.append_assoc, run_snoc]
      dsimp only
      rw [get?_step, hlive]
      intro step htold huri
      cases step with
      | opened d' =>
        -- a document that is live is open, so it cannot be opened
        have hnone := get?_of_opened w horderly htold
        rw [show d'.uri = d.uri from huri, hlive] at hnone
        cases hnone
      | changed d' => exact huntouched _ htold huri
      | closed uri => exact huntouched _ htold huri
    · exact h.live part hpart

/-- Every task that is `held` was set off by the change that came last, inside of a region. -/
theorem exists_lasts (w : Surroundings) {events : List Event} (h : EditorStep.orderly (told w {} events) = true)
    {t : Task InsertionJob} (ht : t ∈ (run w {} events).1.held) :
    ∃ before c since d state, events = before ++ c :: since ∧ Lasts w before c since d state ∧ d.uri = t.uri ∧
      t.job.version = state.version ∧ (state.regionAt? t.job.trigger.position).isSome = true := by
  induction events using List.reverseRecOn with
  | nil => cases ht
  | append_singleton events e ih =>
    rw [run_snoc] at ht
    rcases held_step (run_accounted w events).fits ht with ⟨hold, huntouched⟩ | ⟨d, state, htold, huri, -, hstate, hjob⟩
    · obtain ⟨before, c, since, d, state, rfl, hlasts, huri, hjob⟩ := ih (orderly_told_of_append h) hold
      rw [← huri] at huntouched
      exact ⟨before, c, since ++ [e], d, state, by simp, hlasts.snoc h huntouched, huri, hjob⟩
    · have hlasts : Lasts w events e [] d state := by
        refine ⟨htold, fun step hstep => (by cases hstep), fun part hpart => ?_⟩
        rw [List.prefix_nil.1 hpart, run_snoc]
        exact hstate
      exact ⟨events, e, [], d, state, rfl, hlasts, huri, hjob⟩

/-! ## Insertions -/

theorem exists_insertion_of_call? {action : Action} {params : Json}
    (h : action.call? = some ("workspace/applyEdit", params)) :
    ∃ ticket insertion, action = .insert ticket insertion ∧
      params = .obj [("edit", AutoInsert.Insertion.toJson insertion)] := by
  cases action with
  | insert ticket insertion =>
    cases h
    exact ⟨ticket, insertion, rfl, rfl⟩
  | _ => simp [Action.call?] at h

/-- Automatic insertion never acts on a document that moved on. In every `run` that is `orderly`, so that no
document is opened that is open already, whatever else happens: every edit that the editor is asked for goes back to
a change of its document after which nothing changed or closed the document up to the moment of sending,
at which it still is as that change left it. The edit carries the version of that state and inserts at
one position, inside of one of its regions. And from a change on until its document is changed again or
closed there is at most one such edit. -/
theorem insertions_follow_changes (w : Surroundings) (events : List Event)
    (horderly : EditorStep.orderly (told w {} events) = true) :
    (∀ earlier e later, events = earlier ++ e :: later →
      ∀ action ∈ ((run w {} earlier).1.step w e).2, ∀ params,
        action.call? = some ("workspace/applyEdit", params) →
        ∃ before c since d state position text, earlier = before ++ c :: since ∧
          Lasts w before c (since ++ [e]) d state ∧ (state.regionAt? position).isSome = true ∧
          params = .obj [("edit", .obj [("documentChanges", .arr [.obj [
            ("textDocument", .obj [("uri", d.uri.toJson), ("version", .int state.version)]),
            ("edits", .arr [TextEdit.toJson ⟨⟨position, position⟩, text⟩])]])])]) ∧
    ∀ before c since later d, events = before ++ c :: since ++ later →
      (run w {} before).1.told? c = some (.changed d) →
      (∀ step ∈ told w (run w {} (before ++ [c])).1 since, ¬ step.Touches d.uri) →
      ((Action.insertions ((run w {} before).1.run w (c :: since)).2).filter fun x => x.2.uri = d.uri).length ≤ 1 := by
  refine ⟨?_, fun before c since later d _ hc h => insertions_since_change_le_one w before c since hc h⟩
  rintro earlier e later rfl action haction params hparams
  obtain ⟨ticket, insertion, rfl, rfl⟩ := exists_insertion_of_call? hparams
  rw [List.append_cons] at horderly
  have hsending := orderly_told_of_append horderly
  -- the insertion is what a task asks for, which stems from the change that came last
  obtain ⟨hsilent, t, ht, -, hserves⟩ :=
    exists_held_of_insertion (run_accounted w earlier).fits (Action.mem_insertions_iff.2 haction)
  obtain ⟨before, c, since, d, state, rfl, hlasts, huri, hversion, hregion⟩ :=
    exists_lasts w (orderly_told_of_append hsending) ht
  obtain ⟨huri', hversion', hposition⟩ := hserves
  have hsnoc : Lasts w before c (since ++ [e]) d state := by
    refine hlasts.snoc hsending fun step hstep => ?_
    rw [hsilent] at hstep
    cases hstep
  refine ⟨before, c, since, d, state, t.job.trigger.position, String.ofList insertion.text, rfl, hsnoc, hregion, ?_⟩
  rw [AutoInsert.Insertion.toJson, show insertion.uri = d.uri from huri'.trans huri.symm,
    show insertion.version = state.version from hversion'.trans hversion,
    show insertion.position = t.job.trigger.position from hposition]
  rfl

/-- A run with an insertion: the end of an opening tag is typed, the time passes, and the markup server
suggests the closing tag. -/
theorem insertions_follow_changes_typed :
    let w : Surroundings := ⟨{}, fun _ _ => none, 1⟩
    let uri := Json.str "file:///a.rs"
    let start : List Event := [
      .request (.nat 1) "initialize" (some (.obj [("capabilities", .obj [])])),
      .markupMessage (.obj [("id", .nat 1), ("result", .null)]),
      .notification "textDocument/didOpen" (some (.obj [("textDocument", .obj [("uri", uri),
        ("languageId", .str "rust"), ("version", .nat 1), ("text", .text ['U', 'I', '!', '{', '<', 'a', '}'])])]))]
    let typed : Event := .notification "textDocument/didChange" (some (.obj [
      ("textDocument", .obj [("uri", uri), ("version", .nat 2)]),
      ("contentChanges", .arr [.obj [("range", Range.toJson ⟨⟨0, 6⟩, ⟨0, 6⟩⟩), ("text", .str ">")]])]))
    let reply : Event := .markupMessage (.obj [("id", .nat 2), ("result", .str "$0</a>")])
    let earlier := start ++ [typed, .tick 1000]
    let url : Url := { scheme := ['f', 'i', 'l', 'e'], host := some [], path := ['/', 'a', '.', 'r', 's'] }
    let params := Json.obj [("edit", .obj [("documentChanges", .arr [.obj [
      ("textDocument", .obj [("uri", uri), ("version", .nat 2)]),
      ("edits", .arr [.obj [("range", Range.toJson ⟨⟨0, 7⟩, ⟨0, 7⟩⟩), ("newText", .str "</a>")]])]])])]
    EditorStep.orderly (told w {} (earlier ++ [reply])) = true ∧
      Action.insertions ((run w {} earlier).1.step w reply).2 = [(0, ⟨url, 2, ⟨0, 7⟩, ['<', '/', 'a', '>']⟩)] ∧
      (∃ action ∈ ((run w {} earlier).1.step w reply).2, action.call? = some ("workspace/applyEdit", params)) ∧
      ∃ before c since d state, earlier = before ++ c :: since ∧ Lasts w before c (since ++ [reply]) d state ∧
        d.uri.toString = "file:///a.rs" ∧ state.version = 2 ∧ (state.regionAt? ⟨0, 7⟩).isSome = true := by
  intro w uri start typed reply earlier url params
  have horderly : EditorStep.orderly (told w {} (earlier ++ [reply])) = true := by decide +kernel
  have hinsertions : Action.insertions ((run w {} earlier).1.step w reply).2 =
      [(0, ⟨url, 2, ⟨0, 7⟩, ['<', '/', 'a', '>']⟩)] := by decide +kernel
  have hmem := Action.mem_insertions_iff.1 (hinsertions ▸ List.mem_singleton_self _)
  have huri : Url.toJson url = uri := congrArg Json.str (by decide +kernel)
  have hcall : (Action.insert 0 ⟨url, 2, ⟨0, 7⟩, ['<', '/', 'a', '>']⟩).call? = some ("workspace/applyEdit", params) := by
    show some ("workspace/applyEdit", Json.obj [("edit", .obj [("documentChanges", .arr [.obj [
      ("textDocument", .obj [("uri", Url.toJson url), _]), _]])])]) = _
    rw [huri]; rfl
  obtain ⟨before, c, since, d, state, position, text, hearlier, hlasts, hregion, hparams⟩ :=
    (insertions_follow_changes w (earlier ++ [reply]) horderly).1 earlier reply [] rfl _ hmem _ hcall
  -- the parameters say which document, which version and which edit it is
  simp only [params, uri, Json.obj.injEq, Json.arr.injEq, List.cons.injEq, Prod.mk.injEq, and_true, true_and] at hparams
  obtain ⟨⟨hdoc, hversion⟩, hedit⟩ := hparams
  have hposition : position = ⟨0, 7⟩ := by
    have hedit : TextEdit.mk ⟨⟨0, 7⟩, ⟨0, 7⟩⟩ "</a>" = ⟨⟨position, position⟩, text⟩ := TextEdit.toJson_inj hedit
    simpa using (congrArg (·.range.start) hedit).symm
  refine ⟨horderly, hinsertions, ⟨_, hmem, hcall⟩, before, c, since, d, state, hearlier, hlasts, ?_, ?_,
    hposition ▸ hregion⟩
  · exact (Json.str.inj hdoc).symm
  · simpa [Json.nat, Json.int] using hversion.symm

end Server

end EmbeddedMarkup
