/-
What `opened`, `changed` and `closed` do to the parts of the server: the session changes as if the server
were not there, the markup client is told of `vanished` documents only, and an insertion is put off by
`schedule`, or given up by `unschedule`, for the one document that the notification is about.
-/
import EmbeddedMarkup.Proofs.Debouncer.Tasks
import EmbeddedMarkup.Proofs.Session.Basic
import EmbeddedMarkup.Server.Documents

namespace EmbeddedMarkup.Server

/-! ## The client and the rest -/

/-- `onClient` changes nothing but the client. -/
theorem onClient_eq (s : Server) (f : Client → Client × List Effect) :
    (s.onClient f).1 = { s with markup := s.markup.map fun c => (f c).1 } := by
  unfold onClient
  cases h : s.markup with
  | none => cases s; cases h; rfl
  | some c => rfl

@[simp] theorem onClient_session (s : Server) (f : Client → Client × List Effect) :
    (s.onClient f).1.session = s.session := by
  rw [onClient_eq]

@[simp] theorem onClient_debouncer (s : Server) (f : Client → Client × List Effect) :
    (s.onClient f).1.debouncer = s.debouncer := by
  rw [onClient_eq]

@[simp] theorem closeVanished_session (s : Server) (previous current : Option HostDocument) :
    (s.closeVanished previous current).1.session = s.session := by
  unfold closeVanished
  split
  · rfl
  · rw [onClient_session]

@[simp] theorem closeVanished_debouncer (s : Server) (previous current : Option HostDocument) :
    (s.closeVanished previous current).1.debouncer = s.debouncer := by
  unfold closeVanished
  split
  · rfl
  · rw [onClient_debouncer]

@[simp] theorem closeVanished_waiting (s : Server) (previous current : Option HostDocument) :
    (s.closeVanished previous current).1.waiting = s.waiting := by
  unfold closeVanished
  split
  · rfl
  · rw [onClient_eq]

/-! ## Putting insertions off -/

/-- Nothing is put off, or one insertion into the version at hand, inside of one of its regions. -/
theorem schedule_cases (s : Server) (d : HostDocument) (changes : List Change) :
    s.schedule d changes = s ∨ ∃ delay job, job.version = d.version ∧
      (d.regionAt? job.trigger.position).isSome = true ∧
      s.schedule d changes = { s with debouncer := s.debouncer.schedule d.uri delay job } := by
  unfold schedule
  dsimp only
  split
  · exact .inl rfl
  · rename_i trigger _
    split
    · rename_i hregion
      exact .inr ⟨_, ⟨d.version, trigger⟩, rfl, hregion, rfl⟩
    · exact .inl rfl

/-- `schedule` touches the debouncer only. -/
theorem schedule_eq (s : Server) (d : HostDocument) (changes : List Change) :
    s.schedule d changes = { s with debouncer := (s.schedule d changes).debouncer } := by
  rcases s.schedule_cases d changes with h | ⟨delay, job, -, -, h⟩ <;> rw [h]

@[simp] theorem schedule_session (s : Server) (d : HostDocument) (changes : List Change) :
    (s.schedule d changes).session = s.session := by
  rw [schedule_eq]

/-- Without a handle for a document there is nothing to give up. -/
theorem unschedule_eq_self {s : Server} {uri : Url} (h : ∀ x ∈ s.debouncer.handles, x.1 ≠ uri) :
    s.unschedule uri = s := by
  unfold unschedule
  rw [Debouncer.cancel_eq_self h]

/-! ## The three notifications -/

theorem opened_session {s : Server} {d : OpenedDocument} (h : d.isHost = true) :
    (s.opened d).1.session = (s.session.put d.uri d.text d.version).1 := by
  unfold opened
  rw [if_pos h]
  exact closeVanished_session ..

theorem opened_debouncer (s : Server) (d : OpenedDocument) : (s.opened d).1.debouncer = s.debouncer := by
  unfold opened
  split
  · exact closeVanished_debouncer ..
  · rfl

/-- A change of a document that is not open gives up its insertion, and that is all. -/
theorem changed_of_none {s : Server} {d : ChangedDocument} (h : s.session.get? d.uri = none) :
    s.changed d = (s.unschedule d.uri, []) := by
  have hc : (s.unschedule d.uri).session.change? d.uri d.changes d.version = none := by
    unfold Session.change?
    rw [show (s.unschedule d.uri).session = s.session from rfl, h]; rfl
  unfold changed
  dsimp only
  rw [hc]

/-- A change of an open document puts in place what the changes make of its text. -/
theorem changed_of_some {s : Server} {d : ChangedDocument} {host : HostDocument}
    (h : s.session.get? d.uri = some host) :
    s.changed d =
      let put := s.session.put d.uri (Change.applyAll host.text d.changes) d.version
      let closed := { s.unschedule d.uri with session := put.1 }.closeVanished (some host) (some put.2.1)
      (closed.1.schedule put.2.1 d.changes, closed.2) := by
  have hc : (s.unschedule d.uri).session.change? d.uri d.changes d.version =
      some ((s.session.put d.uri (Change.applyAll host.text d.changes) d.version).1,
        (s.session.put d.uri (Change.applyAll host.text d.changes) d.version).2.1, some host) := by
    unfold Session.change?
    rw [show (s.unschedule d.uri).session = s.session from rfl, h, Option.map_some, ← h]; rfl
  unfold changed
  dsimp only
  rw [hc]

theorem changed_session {s : Server} {d : ChangedDocument} {host : HostDocument}
    (h : s.session.get? d.uri = some host) :
    (s.changed d).1.session = (s.session.put d.uri (Change.applyAll host.text d.changes) d.version).1 := by
  rw [changed_of_some h]
  dsimp only
  rw [schedule_session, closeVanished_session]

/-- `changed` gives up the insertion into its document, and may put off one into the version that it makes. -/
theorem changed_debouncer {s : Server} {d : ChangedDocument} {host : HostDocument}
    (h : s.session.get? d.uri = some host) :
    (s.changed d).1.debouncer = (s.debouncer.cancel d.uri).1 ∨
      ∃ delay job, job.version = d.version ∧
        ((HostDocument.make d.uri (Change.applyAll host.text d.changes) d.version).regionAt?
          job.trigger.position).isSome = true ∧
        (s.changed d).1.debouncer = (s.debouncer.cancel d.uri).1.schedule d.uri delay job := by
  rw [changed_of_some h]
  dsimp only
  generalize hclosed : closeVanished _ _ _ = closed
  have hdebouncer : closed.1.debouncer = (s.debouncer.cancel d.uri).1 := by
    rw [← hclosed, closeVanished_debouncer]; rfl
  rcases closed.1.schedule_cases _ d.changes with hsame | ⟨delay, job, hversion, hregion, hnew⟩
  · rw [hsame]
    exact .inl hdebouncer
  · rw [hnew, ← hdebouncer]
    exact .inr ⟨delay, job, hversion, hregion, rfl⟩

theorem mem_handles_changed {s : Server} {d : ChangedDocument} {host : HostDocument} {x : Url × Nat}
    (h : s.session.get? d.uri = some host) (hx : x ∈ (s.changed d).1.debouncer.handles) :
    x ∈ s.debouncer.handles ∨ x.1 = d.uri := by
  rcases changed_debouncer h with hd | ⟨delay, job, -, -, hd⟩
  · rw [hd, Debouncer.handles_cancel] at hx
    exact .inl (List.mem_filter.1 hx).1
  · rw [hd, Debouncer.handles_schedule, Debouncer.handles_cancel] at hx
    rcases List.mem_append.1 hx with hx | hx
    · exact .inl (List.mem_filter.1 (List.mem_filter.1 hx).1).1
    · rw [List.mem_singleton] at hx
      exact .inr (by rw [hx])

theorem closed_session (s : Server) (uri : Url) : (s.closed uri).1.session = s.session.erase uri := by
  unfold closed
  exact closeVanished_session ..

theorem closed_debouncer (s : Server) (uri : Url) : (s.closed uri).1.debouncer = (s.debouncer.cancel uri).1 := by
  unfold closed
  exact closeVanished_debouncer ..

theorem mem_handles_closed {s : Server} {uri : Url} {x : Url × Nat}
    (h : x ∈ (s.closed uri).1.debouncer.handles) : x ∈ s.debouncer.handles ∧ x.1 ≠ uri := by
  rw [closed_debouncer, Debouncer.handles_cancel] at h
  have h := List.mem_filter.1 h
  exact ⟨h.1, by simpa using h.2⟩

end EmbeddedMarkup.Server
