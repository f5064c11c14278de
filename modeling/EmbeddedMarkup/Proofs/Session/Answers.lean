/-
Answers and the texts that they are about. An answer is given when the document `isCurrent`, with the
version that it had when the question came; whether it then has the text that it had depends on the editor
alone. It does unless the document was opened anew or changed while the question was under way, under the
version that it had before, and ends up with another text: the steps `Reuses` the version. Then, and only
then, an answer is given whose places are those of a text that is gone.
-/
import EmbeddedMarkup.AutoInsert
import EmbeddedMarkup.Proofs.Session.Virtual
import Mathlib.Data.List.Induction

namespace EmbeddedMarkup

namespace Session

/-- The text that a session holds at an address. -/
def text? (s : Session) (uri : Url) : Option Text :=
  (s.get? uri).map (·.text)

/-- Whether the steps leave the document at an address open under the version that it had before them,
but with another text. -/
def Reuses (s : Session) (steps : List Step) (uri : Url) : Prop :=
  ∃ old live, s.get? uri = some old ∧ (s.run steps).get? uri = some live ∧ live.version = old.version ∧
    live.text ≠ old.text

/-- The address that a step is about. -/
def Step.uri : Step → Url
  | put uri _ _ => uri
  | change uri _ _ => uri
  | close uri => uri

/-- The version that a step gives its document, which `closed` does not. -/
def Step.version? : Step → Option Int
  | put _ _ version => some version
  | change _ _ version => some version
  | close _ => none

/-! ## Steps and runs at one address -/

/-- A step about another address changes nothing at this one. -/
theorem get?_step_of_ne (s : Session) {step : Step} {uri : Url} (h : step.uri ≠ uri) :
    (s.step step).get? uri = s.get? uri := by
  cases step with
  | put u t v => exact (get?_put ..).trans (if_neg h.symm)
  | change u changes v =>
    rw [step_change]
    cases s.get? u with
    | none => rfl
    | some d => exact (get?_put ..).trans (if_neg h.symm)
  | close u => exact (get?_erase ..).trans (if_neg h.symm)

/-- A document that is open after a step about it has the version of that step. -/
theorem version?_of_get?_step {s : Session} {step : Step} {d : HostDocument}
    (h : (s.step step).get? step.uri = some d) : step.version? = some d.version := by
  cases step with
  | put u t v =>
    cases ((get?_put ..).trans (if_pos rfl)).symm.trans h
    rfl
  | change u changes v =>
    rw [step_change] at h
    cases hg : s.get? u with
    | none =>
      rw [hg] at h
      cases hg.symm.trans h
    | some x =>
      rw [hg] at h
      cases ((get?_put ..).trans (if_pos rfl)).symm.trans h
      rfl
  | close u => cases ((get?_erase ..).trans (if_pos rfl)).symm.trans h

theorem run_append (s : Session) (a b : List Step) : s.run (a ++ b) = (s.run a).run b :=
  List.foldl_append

theorem get?_run_of_ne {s : Session} {steps : List Step} {uri : Url} (h : ∀ step ∈ steps, step.uri ≠ uri) :
    (s.run steps).get? uri = s.get? uri := by
  induction steps generalizing s with
  | nil => rfl
  | cons step steps ih =>
    have hrest : ((s.step step).run steps).get? uri = (s.step step).get? uri :=
      ih fun x hx => h x (List.mem_cons_of_mem _ hx)
    exact hrest.trans (s.get?_step_of_ne (h step (List.mem_cons_self ..)))

/-- A document is as it was, or the last step about it made it so. -/
theorem get?_run_cases (s : Session) (steps : List Step) (uri : Url) :
    (s.run steps).get? uri = s.get? uri ∨
      ∃ before step after, steps = before ++ step :: after ∧ step.uri = uri ∧ (∀ x ∈ after, x.uri ≠ uri) ∧
        (s.run steps).get? uri = (s.run (before ++ [step])).get? uri := by
  -- from the last step backwards: the first one about the document is the one that counts
  induction steps using List.reverseRecOn with
  | nil => exact .inl rfl
  | append_singleton steps step ih =>
    by_cases hstep : step.uri = uri
    · exact .inr ⟨steps, step, [], rfl, hstep, fun _ h => (by cases h), rfl⟩
    · have hsame : (s.run (steps ++ [step])).get? uri = (s.run steps).get? uri := by
        rw [run_append]
        exact get?_step_of_ne _ hstep
      rcases ih with ih | ⟨before, last, after, rfl, hlast, hafter, hget⟩
      · exact .inl (hsame.trans ih)
      · refine .inr ⟨before, last, after ++ [step], by simp, hlast, fun x hx => ?_, hsame.trans hget⟩
        rcases List.mem_append.1 hx with hx | hx
        · exact hafter x hx
        · rw [List.mem_singleton] at hx
          exact hx ▸ hstep

/-- `Reuses` holds just when the last step about the document gave it the version that it had, and another
text. -/
theorem reuses_iff {s : Session} {steps : List Step} {uri : Url} :
    s.Reuses steps uri ↔ ∃ old before step after t, s.get? uri = some old ∧ steps = before ++ step :: after ∧
      step.uri = uri ∧ step.version? = some old.version ∧ (∀ x ∈ after, x.uri ≠ uri) ∧
      (s.run (before ++ [step])).text? uri = some t ∧ t ≠ old.text := by
  constructor
  · rintro ⟨old, live, hold, hlive, hversion, htext⟩
    rcases s.get?_run_cases steps uri with hsame | ⟨before, step, after, rfl, rfl, hafter, hget⟩
    · rw [hsame, hold] at hlive
      cases hlive
      exact absurd rfl htext
    · rw [hget] at hlive
      have hstep : ((s.run before).step step).get? step.uri = some live := by
        rw [run_append] at hlive
        exact hlive
      refine ⟨old, before, step, after, live.text, hold, rfl, rfl, ?_, hafter, ?_, htext⟩
      · rw [← hversion]
        exact version?_of_get?_step hstep
      · rw [text?, hlive, Option.map_some]
  · rintro ⟨old, before, step, after, t, hold, rfl, rfl, hversion, hafter, htext, hne⟩
    obtain ⟨live, hlive, rfl⟩ := Option.map_eq_some_iff.1 htext
    refine ⟨old, live, hold, ?_, ?_, hne⟩
    · rw [← List.singleton_append, ← List.append_assoc, run_append, get?_run_of_ne hafter, hlive]
    · rw [run_append] at hlive
      have hstep : ((s.run before).step step).get? step.uri = some live := hlive
      rw [version?_of_get?_step hstep] at hversion
      exact Option.some.inj hversion

theorem Reuses.text?_ne {s : Session} {steps : List Step} {uri : Url} (h : s.Reuses steps uri) :
    (s.run steps).text? uri ≠ s.text? uri := by
  obtain ⟨old, live, hold, hlive, -, htext⟩ := h
  unfold text?
  rw [hold, hlive]
  exact fun he => htext (Option.some.inj he)

theorem isCurrent_iff {s : Session} {uri : Url} {version : Int} :
    s.isCurrent uri version = true ↔ ∃ d, s.get? uri = some d ∧ d.version = version := by
  unfold isCurrent
  cases s.get? uri with
  | none => simp
  | some d => simp

/-- Unless a version is reused, a document that `isCurrent` still has its text. -/
theorem text?_eq_of_isCurrent {s : Session} {steps : List Step} {uri : Url} {old : HostDocument}
    (h : ¬ s.Reuses steps uri) (hold : s.get? uri = some old)
    (hc : (s.run steps).isCurrent uri old.version = true) : (s.run steps).text? uri = s.text? uri := by
  obtain ⟨live, hlive, hversion⟩ := isCurrent_iff.1 hc
  unfold text?
  rw [hold, hlive, Option.map_some, Option.map_some]
  by_contra htext
  exact h ⟨old, live, hold, hlive, hversion, fun he => htext (by rw [he])⟩

end Session

/-! ## Queries -/

/-- A query only has a result when the document `isCurrent`. -/
theorem Query.isCurrent_of_result {q : Query} {s : Session} {uri : Url} {p : Position} {steps : List Session.Step}
    {reply : Option q.Reply} {r : q.Reply} (h : (q.run s uri p steps reply).result = some r) :
    ∃ old, s.get? uri = some old ∧ (s.run steps).isCurrent uri old.version = true := by
  unfold Query.run at h
  split at h
  · cases h
  · rename_i i hi
    obtain ⟨hhost, -⟩ := Session.inquire?_eq_some hi
    obtain ⟨x, -, hx⟩ := Option.bind_eq_some_iff.1 h
    split at hx
    · rename_i hc
      unfold Inquiry.isCurrent at hc
      rw [(Session.mem_of_get? hhost).2] at hc
      exact ⟨i.host, hhost, hc⟩
    · cases hx

/-- To every query there is a reply for which `toHost?` gives something. -/
theorem Query.exists_toHost? (q : Query) (d : HostDocument) (doc : VirtualDocument) :
    ∃ reply r, q.toHost? d doc reply = some r := by
  cases q with
  | hover => exact ⟨(default : Hover), _, rfl⟩
  | completion context => exact ⟨(default : Completion), _, rfl⟩
  | definition => exact ⟨(default : Definition), _, rfl⟩
  | linkedRanges => exact ⟨(⟨[], none⟩ : LinkedRanges), _, rfl⟩
  | autoInsert kind => exact ⟨"x", _, rfl⟩

/-- Where the steps are such that `Reuses` holds, every query that is made may get a result. -/
theorem Query.exists_result_of_reuses (q : Query) {s : Session} {uri : Url} {steps : List Session.Step}
    (h : s.Reuses steps uri) {p : Position} (hp : (s.inquire? uri p).isSome = true) :
    ∃ reply r, (q.run s uri p steps reply).result = some r := by
  obtain ⟨i, hi⟩ := Option.isSome_iff_exists.1 hp
  obtain ⟨old, live, hold, hlive, hversion, -⟩ := h
  obtain ⟨hhost, -⟩ := Session.inquire?_eq_some hi
  obtain ⟨reply, r, hr⟩ := q.exists_toHost? i.host i.target
  have hc : i.isCurrent (s.run steps) = true := by
    unfold Inquiry.isCurrent
    rw [(Session.mem_of_get? hhost).2, Session.isCurrent_iff]
    rw [hold] at hhost
    cases hhost
    exact ⟨live, hlive, hversion⟩
  refine ⟨some reply, r, ?_⟩
  unfold Query.run
  rw [hi]
  dsimp only [Inquiry.settle]
  rw [Option.bind_some, if_pos hc, hr]

/-! ## Insertions -/

namespace AutoInsert

theorem inquire?_eq_some {s : Session} {uri : Url} {version : Int} {trigger : Trigger} {i : Inquiry}
    (h : inquire? s uri version trigger = some i) :
    s.isCurrent uri version = true ∧ s.inquire? uri trigger.position = some i := by
  unfold inquire? at h
  split at h
  · rename_i hc
    exact ⟨hc, h⟩
  · cases h

/-- When there is an insertion: something is suggested that is switched on and not typed already, and
the document is in its version. -/
theorem conclude?_some (s : Session) (settings : AutoInsertSettings) (uri : Url) (version : Int) (trigger : Trigger)
    (suggestion : String) :
    conclude? s settings uri version trigger (some suggestion) =
      if settings.isEnabled trigger.kind = true ∧
        ¬ (trigger.kind = .close ∧ alreadyTyped trigger suggestion.toList = true) ∧ s.isCurrent uri version = true
      then some ⟨uri, version, trigger.position, Snippet.plain suggestion.toList⟩ else none := by
  unfold conclude?
  by_cases h1 : settings.isEnabled trigger.kind = true
  · by_cases h2 : trigger.kind = .close ∧ alreadyTyped trigger suggestion.toList = true
    · simp [h2]
    · by_cases h3 : s.isCurrent uri version = true <;> simp [h1, h2, h3]
  · simp [h1]

theorem isCurrent_of_conclude? {s : Session} {settings : AutoInsertSettings} {uri : Url} {version : Int}
    {trigger : Trigger} {outcome : Option String} {insertion : Insertion}
    (h : conclude? s settings uri version trigger outcome = some insertion) : s.isCurrent uri version = true := by
  cases outcome with
  | none => cases h
  | some suggestion =>
    rw [conclude?_some] at h
    split at h
    · rename_i hc
      exact hc.2.2
    · cases h

theorem isCurrent_of_insertion {s : Session} {settings : AutoInsertSettings} {uri : Url} {version : Int}
    {trigger : Trigger} {steps : List Session.Step} {reply : Option String} {insertion : Insertion}
    (h : (resolve s settings uri version trigger steps reply).result = some insertion) :
    ∃ old, s.get? uri = some old ∧ (s.run steps).isCurrent uri old.version = true := by
  unfold resolve at h
  split at h
  · cases h
  · rename_i i hi
    obtain ⟨hc, -⟩ := inquire?_eq_some hi
    obtain ⟨old, hold, hversion⟩ := Session.isCurrent_iff.1 hc
    exact ⟨old, hold, hversion ▸ isCurrent_of_conclude? h⟩

/-- A suggestion that is longer than what was typed is not `alreadyTyped`. -/
theorem exists_not_alreadyTyped (trigger : Trigger) :
    ∃ suggestion : String, suggestion.isEmpty = false ∧ alreadyTyped trigger suggestion.toList = false := by
  have htrim : (Text.trim trigger.typed).length ≤ trigger.typed.length := by
    unfold Text.trim Text.trimEnd Text.trimStart
    rw [List.length_reverse]
    refine (List.length_dropWhile_le ..).trans ?_
    rw [List.length_reverse]
    exact List.length_dropWhile_le ..
  refine ⟨String.ofList (['x', 'x'] ++ List.replicate (trigger.typed.length + 1) 'x'), by simp, ?_⟩
  have hsplit : Text.splitAt? (['x', 'x'] ++ List.replicate (trigger.typed.length + 1) 'x') 2 =
      some (['x', 'x'], List.replicate (trigger.typed.length + 1) 'x') := Text.splitAt?_append ['x', 'x'] _
  unfold alreadyTyped
  rw [String.toList_ofList, hsplit]
  simp only [Option.map_some, Option.getD_some]
  rw [Bool.eq_false_iff, Ne, List.isSuffixOf_iff_suffix]
  intro hs
  have := hs.length_le
  rw [List.length_replicate] at this
  omega

/-- A suggestion that comes when the document is in the version that the trigger is about is decided upon. -/
theorem result_resolve {s : Session} {settings : AutoInsertSettings} {uri : Url} {version : Int} {trigger : Trigger}
    {steps : List Session.Step} {suggestion : String} (hi : (inquire? s uri version trigger).isSome = true)
    (hcurrent : (s.run steps).isCurrent uri version = true) (hne : suggestion.isEmpty = false) :
    (resolve s settings uri version trigger steps (some suggestion)).result =
      conclude? (s.run steps) settings uri version trigger (some suggestion) := by
  obtain ⟨i, hi⟩ := Option.isSome_iff_exists.1 hi
  obtain ⟨hc, hinquire⟩ := inquire?_eq_some hi
  obtain ⟨hhost, -⟩ := Session.inquire?_eq_some hinquire
  obtain ⟨d, hd, rfl⟩ := Session.isCurrent_iff.1 hc
  rw [hd] at hhost
  cases hhost
  have hstill : i.isCurrent (s.run steps) = true := by
    unfold Inquiry.isCurrent
    rwa [(Session.mem_of_get? hd).2]
  have hsettle : i.settle (s.run steps) (.autoInsert trigger.kind) (some suggestion) = some suggestion := by
    show (if i.isCurrent (s.run steps) then if suggestion.isEmpty then none else some suggestion else none) = _
    rw [if_pos hstill, hne]
    rfl
  unfold resolve
  rw [hi]
  exact congrArg (conclude? (s.run steps) settings uri i.host.version trigger) hsettle

/-- And so may every insertion that is asked for be made, where `Reuses` holds. -/
theorem exists_insertion_of_reuses {s : Session} {uri : Url} {steps : List Session.Step} (h : s.Reuses steps uri)
    {settings : AutoInsertSettings} {version : Int} {trigger : Trigger}
    (henabled : settings.isEnabled trigger.kind = true)
    (hi : (inquire? s uri version trigger).isSome = true) :
    ∃ reply insertion, (resolve s settings uri version trigger steps reply).result = some insertion := by
  -- anything may be suggested, so also something that passes the check for what is typed
  obtain ⟨suggestion, hnonempty, htyped⟩ := exists_not_alreadyTyped trigger
  obtain ⟨old, live, hold, hlive, hversion, -⟩ := h
  have hcurrent : (s.run steps).isCurrent uri version = true := by
    obtain ⟨i, hi⟩ := Option.isSome_iff_exists.1 hi
    obtain ⟨old', hold', rfl⟩ := Session.isCurrent_iff.1 (inquire?_eq_some hi).1
    rw [hold] at hold'
    cases hold'
    exact Session.isCurrent_iff.2 ⟨live, hlive, hversion⟩
  have hnew : ¬ (trigger.kind = .close ∧ alreadyTyped trigger suggestion.toList = true) := by
    rintro ⟨-, h'⟩
    rw [htyped] at h'
    cases h'
  refine ⟨some suggestion, ⟨uri, version, trigger.position, Snippet.plain suggestion.toList⟩, ?_⟩
  rw [result_resolve hi hcurrent hnonempty, conclude?_some, if_pos ⟨henabled, hnew, hcurrent⟩]

end AutoInsert

/-! ## Answers -/

namespace Session

/-- When an answer may be about a text that is gone. Let the editor take any steps while a question
about the document at `uri` is under way. Unless they reuse the version of the document, every result
of a query and every insertion is about the text that the session holds by then. If they do, every
query that is made and every insertion that is switched on and asked for can get a reply that lets it
through, although the session holds another text. They do just when the last of them that is about
the document opens or changes it under the version that it had, to another text. -/
theorem answers_live_unless_reuses (s : Session) (uri : Url) (steps : List Step) :
    (¬ s.Reuses steps uri →
      (∀ (q : Query) p reply r, (q.run s uri p steps reply).result = some r →
        (s.run steps).text? uri = s.text? uri) ∧
      ∀ settings version trigger reply insertion,
        (AutoInsert.resolve s settings uri version trigger steps reply).result = some insertion →
          (s.run steps).text? uri = s.text? uri) ∧
    (s.Reuses steps uri → (s.run steps).text? uri ≠ s.text? uri ∧
      (∀ (q : Query) p, (s.inquire? uri p).isSome = true →
        ∃ reply r, (q.run s uri p steps reply).result = some r) ∧
      ∀ settings version trigger, AutoInsertSettings.isEnabled settings (AutoInsert.Trigger.kind trigger) = true →
        (AutoInsert.inquire? s uri version trigger).isSome = true →
          ∃ reply insertion, (AutoInsert.resolve s settings uri version trigger steps reply).result = some insertion) ∧
    (s.Reuses steps uri ↔ ∃ old before step after t, s.get? uri = some old ∧ steps = before ++ step :: after ∧
      step.uri = uri ∧ step.version? = some old.version ∧ (∀ x ∈ after, x.uri ≠ uri) ∧
      (s.run (before ++ [step])).text? uri = some t ∧ t ≠ old.text) := by
  refine ⟨fun h => ⟨fun q p reply r hr => ?_, fun settings version trigger reply insertion hr => ?_⟩,
    fun h => ⟨h.text?_ne, fun q p hp => ?_, fun settings version trigger henabled hi => ?_⟩, reuses_iff⟩
  · obtain ⟨old, hold, hc⟩ := Query.isCurrent_of_result hr
    exact text?_eq_of_isCurrent h hold hc
  · obtain ⟨old, hold, hc⟩ := AutoInsert.isCurrent_of_insertion hr
    exact text?_eq_of_isCurrent h hold hc
  · exact q.exists_result_of_reuses h hp
  · exact AutoInsert.exists_insertion_of_reuses h henabled hi

/-- A document that is closed and opened again under its first version, with another text, while a
question about it is under way: the question is answered with the range of a text that is gone. -/
theorem stale_answer_after_reopening :
    let uri : Url := { scheme := ['f', 'i', 'l', 'e'], host := some [], path := ['/', 'a'] }
    let s : Session := ((⟨[]⟩ : Session).put uri ['U', 'I', '!', '{', 'a', '}'] 1).1
    let steps : List Step := [.close uri, .put uri ['b'] 1]
    let reply : Hover := ⟨.null, some ⟨⟨0, 0⟩, ⟨0, 1⟩⟩⟩
    ((Query.hover.run s uri ⟨0, 4⟩ steps (some reply)).result.map fun h : Hover => h.range) =
        some (some ⟨⟨0, 4⟩, ⟨0, 5⟩⟩) ∧
      (s.run steps).text? uri ≠ s.text? uri := by
  decide +kernel

end Session

end EmbeddedMarkup
