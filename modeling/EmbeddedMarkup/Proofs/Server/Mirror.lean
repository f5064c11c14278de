/-
The session mirrors the editor: an editor holds its documents in UTF-16 code units and tells of every
document that it opens, changes and closes. As long as `run?` goes through, as the ranges of its changes
are forward ones between exact positions, the server `Mirrors` the editor: it holds exactly the documents
that the editor has open, each in the state that the editor's text and the version sent last make.
-/
import EmbeddedMarkup.Proofs.Server.Documents
import EmbeddedMarkup.Proofs.Text.Units
import Mathlib.Logic.Function.Basic

namespace EmbeddedMarkup

/-! ## Editors -/

/-- A document as an editor holds it, with the version sent last. -/
structure Buffer where
  units : Units
  version : Int

/-- The documents that an editor has open. -/
abbrev EditorState := Url → Option Buffer

/-- What an editor does and tells of. -/
inductive EditorStep where
  | opened (d : OpenedDocument)
  | changed (d : ChangedDocument)
  | closed (uri : Url)

namespace EditorState

/-- An editor without documents. -/
def empty : EditorState := fun _ => none

/-- The editor after a step; there is none when a change has a range that is not a forward one
between exact positions of the text it applies to. -/
def step? (e : EditorState) : EditorStep → Option EditorState
  | .opened d => some (Function.update e d.uri (some ⟨Units.ofText d.text, d.version⟩))
  | .changed d =>
    match e d.uri with
    | none => some e
    | some b => (b.units.editAll? d.changes).map fun units => Function.update e d.uri (some ⟨units, d.version⟩)
  | .closed uri => some (Function.update e uri none)

/-- The editor after a list of steps. -/
def run? (e : EditorState) (steps : List EditorStep) : Option EditorState :=
  steps.foldlM step? e

end EditorState

namespace Server

/-- The server when the editor tells of a step. -/
def follow (s : Server) : EditorStep → Server × List Action
  | .opened d => s.opened d
  | .changed d => s.changed d
  | .closed uri => s.closed uri

/-- The server when the editor tells of a list of steps. -/
def followAll (s : Server) (steps : List EditorStep) : Server :=
  steps.foldl (fun s step => (s.follow step).1) s

/-- Whether `d` is the document at `uri` with the text and the version of `b`. -/
def Shows (uri : Url) (b : Buffer) (d : HostDocument) : Prop :=
  ∃ t, Units.ofText t = b.units ∧ d = HostDocument.make uri t b.version

/-- The invariant of runs: the session is well formed and holds what the editor has open, and only
such documents have insertions put off. -/
structure Mirrors (s : Server) (e : EditorState) : Prop where
  wf : s.session.WF
  shows : ∀ uri, Option.Rel (Shows uri) (e uri) (s.session.get? uri)
  handles : ∀ x ∈ s.debouncer.handles, (e x.1).isSome = true

namespace Mirrors

variable {s : Server} {e e' : EditorState}

theorem get?_eq_none (h : Mirrors s e) {uri : Url} (he : e uri = none) : s.session.get? uri = none := by
  have := h.shows uri
  rw [he] at this
  cases hg : s.session.get? uri with
  | none => rfl
  | some d => rw [hg] at this; cases this

theorem get?_eq_some (h : Mirrors s e) {uri : Url} {b : Buffer} (he : e uri = some b) :
    ∃ t, Units.ofText t = b.units ∧ s.session.get? uri = some (HostDocument.make uri t b.version) := by
  have := h.shows uri
  rw [he] at this
  cases hg : s.session.get? uri with
  | none => rw [hg] at this; cases this
  | some d =>
    rw [hg] at this
    cases this with
    | some hd =>
      obtain ⟨t, ht, rfl⟩ := hd
      exact ⟨t, ht, rfl⟩

/-- `changed` changes nothing for a document that the editor does not have open. -/
theorem changed_of_none (h : Mirrors s e) {d : ChangedDocument} (he : e d.uri = none) : s.changed d = (s, []) := by
  rw [Server.changed_of_none (h.get?_eq_none he), unschedule_eq_self]
  intro x hx hxu
  have := h.handles x hx
  rw [hxu, he] at this
  cases this

/-- Putting one document in place on both sides keeps the rest as it is. -/
theorem shows_put (h : Mirrors s e) {uri : Url} {t : Text} {units : Units} (ht : Units.ofText t = units) (v : Int) :
    ∀ uri', Option.Rel (Shows uri') (Function.update e uri (some ⟨units, v⟩) uri')
      ((s.session.put uri t v).1.get? uri') := by
  intro uri'
  rw [Session.get?_put]
  by_cases hu : uri' = uri
  · subst hu
    rw [Function.update_self, if_pos rfl]
    exact .some ⟨t, ht, rfl⟩
  · rw [Function.update_of_ne hu, if_neg hu]
    exact h.shows uri'

theorem isSome_update {uri uri' : Url} {b : Buffer} (h : (e uri').isSome = true ∨ uri' = uri) :
    (Function.update e uri (some b) uri').isSome = true := by
  by_cases hu : uri' = uri
  · subst hu
    rw [Function.update_self]; rfl
  · rw [Function.update_of_ne hu]
    exact h.resolve_right hu

theorem step_opened (h : Mirrors s e) {d : OpenedDocument} (hd : d.isHost = true) :
    Mirrors (s.opened d).1 (Function.update e d.uri (some ⟨Units.ofText d.text, d.version⟩)) := by
  refine ⟨?_, ?_, ?_⟩
  · rw [opened_session hd]
    exact h.wf.put d.uri d.text d.version
  · rw [opened_session hd]
    exact h.shows_put rfl d.version
  · rw [opened_debouncer]
    intro x hx
    exact isSome_update (.inl (h.handles x hx))

theorem step_changed (h : Mirrors s e) {d : ChangedDocument} (he : e.step? (.changed d) = some e') :
    Mirrors (s.changed d).1 e' := by
  simp only [EditorState.step?] at he
  split at he
  · rename_i hnone
    cases he
    rw [h.changed_of_none hnone]
    exact h
  · rename_i b hb
    obtain ⟨units, hunits, rfl⟩ := Option.map_eq_some_iff.1 he
    obtain ⟨t, ht, hg⟩ := h.get?_eq_some hb
    -- both sides edit the same text, once in units and once in bytes
    rw [← ht] at hunits
    have hnew := (Units.editAll?_ofText hunits).symm
    refine ⟨?_, ?_, fun x hx => ?_⟩
    · rw [changed_session hg]
      exact h.wf.put ..
    · rw [changed_session hg]
      exact h.shows_put hnew d.version
    · rcases mem_handles_changed hg hx with hx | hx
      · exact isSome_update (.inl (h.handles x hx))
      · exact isSome_update (.inr hx)

theorem step_closed (h : Mirrors s e) (uri : Url) : Mirrors (s.closed uri).1 (Function.update e uri none) := by
  refine ⟨?_, fun uri' => ?_, fun x hx => ?_⟩
  · rw [closed_session]
    exact h.wf.erase uri
  · rw [closed_session, Session.get?_erase]
    by_cases hu : uri' = uri
    · subst hu
      rw [Function.update_self, if_pos rfl]
      exact .none
    · rw [Function.update_of_ne hu, if_neg hu]
      exact h.shows uri'
  · obtain ⟨hx, hne⟩ := mem_handles_closed hx
    rw [Function.update_of_ne hne]
    exact h.handles x hx

/-- Every `step?` of the editor keeps `Mirrors`. -/
theorem step (h : Mirrors s e) {step : EditorStep} (hd : ∀ d, step = .opened d → d.isHost = true)
    (he : e.step? step = some e') : Mirrors (s.follow step).1 e' := by
  cases step with
  | opened d =>
    cases he
    exact h.step_opened (hd d rfl)
  | changed d => exact h.step_changed he
  | closed uri =>
    cases he
    exact h.step_closed uri

/-- And so does every `run?`. -/
theorem run {steps : List EditorStep} (h : Mirrors s e) (hd : ∀ d, EditorStep.opened d ∈ steps → d.isHost = true)
    (he : e.run? steps = some e') : Mirrors (s.followAll steps) e' := by
  induction steps generalizing s e with
  | nil => cases he; exact h
  | cons a steps ih =>
    unfold EditorState.run? at he
    rw [List.foldlM_cons] at he
    obtain ⟨e₁, h1, h2⟩ := Option.bind_eq_some_iff.1 he
    refine ih (h.step (fun d hda => hd d ?_) h1) (fun d hda => hd d (List.mem_cons_of_mem _ hda)) h2
    rw [hda]
    exact List.mem_cons_self ..

theorem start (s : Server) : Mirrors { s with session := {}, debouncer := {} } EditorState.empty :=
  ⟨Session.empty_wf, fun _ => .none, fun _ h => by cases h⟩

end Mirrors

/-- The server's text never diverges from the editor's. At every moment of a `run?` in which the editor
opens host documents, makes changes with forward ranges between exact positions, and closes
documents, the session holds exactly the documents that the editor has open, no address twice, and
each is the one that the editor's text and the version sent last make. A change of any other document
changes nothing. -/
theorem session_mirrors_editor (s : Server) (done rest : List EditorStep)
    (hosts : ∀ d, EditorStep.opened d ∈ done ++ rest → d.isHost = true)
    (ranges : (EditorState.empty.run? (done ++ rest)).isSome = true) :
    let s' := followAll { s with session := {}, debouncer := {} } done
    ∃ e, EditorState.empty.run? done = some e ∧
      (∀ uri, Option.Rel (Shows uri) (e uri) (s'.session.get? uri)) ∧
      (∀ d, d ∈ s'.session.documents ↔ s'.session.get? d.uri = some d) ∧
      ∀ d : ChangedDocument, e d.uri = none → s'.changed d = (s', []) := by
  obtain ⟨e', he'⟩ := Option.isSome_iff_exists.1 ranges
  unfold EditorState.run? at he'
  rw [List.foldlM_append] at he'
  obtain ⟨e, he, -⟩ := Option.bind_eq_some_iff.1 he'
  have h := (Mirrors.start s).run (fun d hd => hosts d (List.mem_append_left _ hd)) he
  exact ⟨e, he, h.shows, fun d => h.wf.mem_iff, fun d hd => h.changed_of_none hd⟩

/-- A run that changes what stands behind a character of two code units, and then takes the character
away. -/
theorem session_mirrors_editor_pair :
    let uri : Url := { scheme := ['f', 'i', 'l', 'e'], host := some [], path := ['/', 'a'] }
    let done : List EditorStep :=
      [.opened ⟨uri, "rust", 1, ['a', '😀', 'b']⟩,
        .changed ⟨uri, 2, [⟨some ⟨⟨0, 3⟩, ⟨0, 4⟩⟩, none, ['c']⟩, ⟨some ⟨⟨0, 1⟩, ⟨0, 3⟩⟩, none, []⟩]⟩]
    ∃ e, EditorState.empty.run? done = some e ∧ (e uri).map Buffer.units = some (Units.ofText ['a', 'c']) ∧
      Option.Rel (Shows uri) (e uri) ((followAll {} done).session.get? uri) := by
  intro uri done
  have hosts : ∀ d, EditorStep.opened d ∈ done ++ [.closed uri] → d.isHost = true := by
    intro d hd
    simp only [done, List.cons_append, List.nil_append, List.mem_cons, EditorStep.opened.injEq, reduceCtorEq,
      List.not_mem_nil, or_false] at hd
    subst hd
    decide
  obtain ⟨e, he, hshows, -⟩ := session_mirrors_editor {} done [.closed uri] hosts (by decide)
  refine ⟨e, he, ?_, hshows uri⟩
  have hunits : (EditorState.empty.run? done).map (fun e => (e uri).map Buffer.units) =
      some (some (Units.ofText ['a', 'c'])) := by decide
  rw [he] at hunits
  exact Option.some.inj hunits

end Server

end EmbeddedMarkup
