/-
Sessions as maps from addresses to documents: what `get?` finds at an address after each step, and the
invariant `WF` of all sessions that begin empty, that no address is held twice and that every document
is the one that `HostDocument.make` makes of its text.
-/
import EmbeddedMarkup.Proofs.Keyed
import EmbeddedMarkup.Session

namespace EmbeddedMarkup

namespace HostDocument

@[simp] theorem make_uri (uri : Url) (t : Text) (v : Int) : (make uri t v).uri = uri := rfl

@[simp] theorem make_text (uri : Url) (t : Text) (v : Int) : (make uri t v).text = t := rfl

@[simp] theorem make_version (uri : Url) (t : Text) (v : Int) : (make uri t v).version = v := rfl

end HostDocument

namespace Session

/-! ## Look-ups -/

theorem mem_of_get? {s : Session} {uri : Url} {d : HostDocument} (h : s.get? uri = some d) :
    d ∈ s.documents ∧ d.uri = uri :=
  ⟨List.mem_of_find?_eq_some h, by simpa using List.find?_some h⟩

theorem get?_erase (s : Session) (uri uri' : Url) :
    (s.erase uri).get? uri' = if uri' = uri then none else s.get? uri' :=
  Keyed.find?_erase HostDocument.uri s.documents uri uri'

theorem get?_put (s : Session) (uri : Url) (t : Text) (v : Int) (uri' : Url) :
    (s.put uri t v).1.get? uri' = if uri' = uri then some (HostDocument.make uri t v) else s.get? uri' :=
  Keyed.find?_put HostDocument.uri s.documents (HostDocument.make uri t v) uri'

theorem step_change (s : Session) (uri : Url) (changes : List Change) (version : Int) :
    s.step (.change uri changes version) =
      ((s.get? uri).map fun d => (s.put uri (Change.applyAll d.text changes) version).1).getD s := by
  show ((s.change? uri changes version).map (·.1)).getD s = _
  unfold change?
  rw [Option.map_map]; rfl

/-! ## The invariant -/

/-- The invariant of sessions: one document for each address, each derived from its text. -/
structure WF (s : Session) : Prop where
  nodup : (s.documents.map (·.uri)).Nodup
  made : ∀ d ∈ s.documents, d = HostDocument.make d.uri d.text d.version

theorem empty_wf : WF {} :=
  ⟨List.nodup_nil, fun _ h => by cases h⟩

theorem WF.erase {s : Session} (h : WF s) (uri : Url) : WF (s.erase uri) :=
  ⟨Keyed.nodup_erase HostDocument.uri h.nodup uri, fun d hd => h.made d (List.mem_filter.1 hd).1⟩

theorem WF.put {s : Session} (h : WF s) (uri : Url) (t : Text) (v : Int) : WF (s.put uri t v).1 := by
  refine ⟨Keyed.nodup_put HostDocument.uri h.nodup (HostDocument.make uri t v), fun d hd => ?_⟩
  rcases List.mem_append.1 hd with hd | hd
  · exact (h.erase uri).made d hd
  · rw [List.mem_singleton] at hd
    subst hd
    rfl

theorem WF.step {s : Session} (h : WF s) (step : Step) : WF (s.step step) := by
  cases step with
  | put uri t v => exact h.put uri t v
  | change uri changes v =>
    rw [step_change]
    cases s.get? uri with
    | none => exact h
    | some d => exact h.put uri _ v
  | close uri => exact h.erase uri

/-- Every `run` of an empty session is well-formed. -/
theorem run_wf (history : List Step) : WF (run {} history) := by
  suffices h : ∀ s : Session, WF s → WF (s.run history) from h {} empty_wf
  induction history with
  | nil => exact fun s h => h
  | cons step history ih => exact fun s h => ih (s.step step) (h.step step)

/-- A document is held exactly where `get?` finds it. -/
theorem WF.mem_iff {s : Session} (h : WF s) {d : HostDocument} : d ∈ s.documents ↔ s.get? d.uri = some d := by
  unfold get?
  rw [Keyed.find?_eq_some_iff HostDocument.uri h.nodup]
  exact ⟨fun hd => ⟨hd, rfl⟩, And.left⟩

end Session

end EmbeddedMarkup
