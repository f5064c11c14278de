/-
Tickets of insertions in the course of a run. An event either tells of a document, and then the server
follows the editor, by `follow`, and inserts nothing, or it only `Spends` chances. A change gives up the
task of its document and may set off one new task with a new ticket: it `Drops` tasks, or `Adds` one. So
no ticket is used twice, and from one change of a document to the next there is at most one insertion into
it.
-/
import EmbeddedMarkup.Proofs.Server.Chances
import EmbeddedMarkup.Proofs.Server.Mirror
import EmbeddedMarkup.Proofs.Server.Stream

namespace EmbeddedMarkup

/-! ## News of documents -/

/-- What a notification tells of a document. -/
def EditorStep.ofNotice? (method : String) (params : Json) : Option EditorStep :=
  match method with
  | "textDocument/didOpen" => (OpenedDocument.ofParams? params).map .opened
  | "textDocument/didChange" => (ChangedDocument.ofParams? params).map .changed
  | "textDocument/didClose" => (Url.ofCloseParams? params).map .closed
  | _ => none

/-- What an event tells of a document. -/
def Event.editorStep? : Event → Option EditorStep
  | .notification method (some params) => EditorStep.ofNotice? method params
  | _ => none

namespace EditorStep

/-- The document that a step is about. -/
def uri : EditorStep → Url
  | opened d => d.uri
  | changed d => d.uri
  | closed uri => uri

/-- Whether a step changes or closes a document. -/
def Touches (uri : Url) : EditorStep → Prop
  | opened _ => False
  | changed d => d.uri = uri
  | closed uri' => uri' = uri

theorem Touches.uri_eq {uri : Url} {step : EditorStep} (h : step.Touches uri) : step.uri = uri := by
  cases step with
  | opened d => cases h
  | changed d => exact h
  | closed u => exact h

end EditorStep

namespace Server

/-- What an event tells of a document to a server that is at work. -/
def told? (s : Server) (e : Event) : Option EditorStep :=
  if s.stage = .running then e.editorStep? else none

/-- What the events of a run tell of documents. -/
def told (w : Surroundings) (s : Server) : List Event → List EditorStep
  | [] => []
  | e :: events => (s.told? e).toList ++ told w (s.step w e).1 events

theorem told_append (w : Surroundings) (s : Server) (a b : List Event) :
    told w s (a ++ b) = told w s a ++ told w (s.run w a).1 b := by
  induction a generalizing s with
  | nil => rfl
  | cons e a ih => simp [told, run, ih]

theorem told_snoc (w : Surroundings) (s : Server) (events : List Event) (e : Event) :
    told w s (events ++ [e]) = told w s events ++ ((s.run w events).1.told? e).toList := by
  simp [told_append, told]

/-! ## Steps -/

variable {s : Server}

theorem notice_cases (s : Server) (method : String) (params : Json) :
    (EditorStep.ofNotice? method params = none ∧ Spends s (s.notice method params)) ∨
      ∃ step, EditorStep.ofNotice? method params = some step ∧ s.notice method params = s.follow step := by
  have hread : ∀ {α : Type} (o : Option α) (f : α → EditorStep),
      (o.map f = none ∧ Spends s ((o.map fun a => s.follow (f a)).getD (s, []))) ∨
        ∃ step, o.map f = some step ∧ (o.map fun a => s.follow (f a)).getD (s, []) = s.follow step := by
    intro α o f
    cases o with
    | none => exact .inl ⟨rfl, .refl s⟩
    | some a => exact .inr ⟨f a, rfl, rfl⟩
  unfold notice
  split
  · refine .inl ⟨rfl, ?_⟩
    split <;> exact .idle rfl rfl rfl rfl
  · exact hread _ .opened
  · exact hread _ .changed
  · exact hread _ .closed
  · refine .inl ⟨?_, .refl s⟩
    unfold EditorStep.ofNotice?
    split <;> simp_all

theorem notification_cases (s : Server) (method : String) (params : Option Json) :
    (s.told? (.notification method params) = none ∧ Spends s (s.notification method params)) ∨
      ∃ step, s.told? (.notification method params) = some step ∧ s.notification method params = s.follow step := by
  have hsilent : (∀ p, params = some p → s.stage ≠ .running ∨ EditorStep.ofNotice? method p = none) →
      s.told? (.notification method params) = none := by
    intro h
    unfold told?
    split
    · rename_i hstage
      cases params with
      | none => rfl
      | some p => exact (h p rfl).resolve_left fun h => h hstage
    · rfl
  unfold notification
  split
  · exact .inl ⟨hsilent fun _ _ => .inr rfl, .idle rfl rfl rfl rfl⟩
  · refine .inl ⟨hsilent fun _ _ => .inr rfl, ?_⟩
    split <;> exact .idle rfl rfl rfl rfl
  · split
    · rename_i p hstage
      have h := s.notice_cases method p
      rwa [show EditorStep.ofNotice? method p = s.told? (.notification method (some p)) by
        rw [told?, if_pos hstage]; rfl] at h
    · rename_i hnot
      exact .inl ⟨hsilent fun p hp => .inl fun hstage => hnot p hstage hp, .refl s⟩

/-- What a `step` can be: news of a document that the server follows, or else it only `Spends` chances. -/
theorem step_cases (w : Surroundings) (s : Server) (e : Event) :
    (s.told? e = none ∧ Spends s (s.step w e)) ∨ ∃ step, s.told? e = some step ∧ s.step w e = s.follow step := by
  have hsilent : e.editorStep? = none → s.told? e = none := by
    intro h
    simp [told?, h]
  cases e with
  | request id method params =>
    refine .inl ⟨hsilent rfl, ?_⟩
    show Spends s (if s.stage = .exited then (s, []) else s.request w id method params)
    split
    · exact .refl s
    · exact spends_request w id method params
  | notification method params =>
    show (_ ∧ Spends s (if s.stage = .exited then (s, []) else s.notification method params)) ∨
      ∃ step, _ ∧ (if s.stage = .exited then (s, []) else s.notification method params) = _
    split
    · rename_i hstage
      refine .inl ⟨?_, .refl s⟩
      simp [told?, hstage]
    · exact s.notification_cases method params
  | inserted ticket => exact .inl ⟨hsilent rfl, spends_setPhase ticket .finished rfl⟩
  | markupMessage message => exact .inl ⟨hsilent rfl, spends_markupStep fun c => c.receive message⟩
  | markupEnded error => exact .inl ⟨hsilent rfl, spends_markupStep fun c => c.endOutput error⟩
  | markupWrite succeeds => exact .inl ⟨hsilent rfl, spends_markupStep fun c => c.writeNext succeeds⟩
  | tick now => exact .inl ⟨hsilent rfl, spends_tick now⟩

/-! ## Following the editor -/

theorem insertions_closeVanished (s : Server) (previous current : Option HostDocument) :
    Action.insertions (s.closeVanished previous current).2 = [] := by
  unfold closeVanished onClient
  split
  · rfl
  · split
    · rfl
    · exact Action.insertions_ofEffects _

/-- `follow` inserts nothing, and what waits goes on waiting. -/
theorem follow_frame (s : Server) (step : EditorStep) :
    Action.insertions (s.follow step).2 = [] ∧ (s.follow step).1.waiting = s.waiting := by
  cases step with
  | opened d =>
    show Action.insertions (s.opened d).2 = [] ∧ (s.opened d).1.waiting = s.waiting
    unfold opened
    split
    · exact ⟨insertions_closeVanished .., closeVanished_waiting ..⟩
    · exact ⟨rfl, rfl⟩
  | changed d =>
    show Action.insertions (s.changed d).2 = [] ∧ (s.changed d).1.waiting = s.waiting
    cases hg : s.session.get? d.uri with
    | none =>
      rw [changed_of_none hg]
      exact ⟨rfl, rfl⟩
    | some host =>
      rw [changed_of_some hg]
      dsimp only
      rw [schedule_eq]
      exact ⟨insertions_closeVanished .., closeVanished_waiting ..⟩
  | closed uri => exact ⟨insertions_closeVanished .., closeVanished_waiting ..⟩

/-- `follow` leaves all documents alone but the one that the step is about. -/
theorem follow_get? {step : EditorStep} {uri : Url} (h : step.uri ≠ uri) :
    (s.follow step).1.session.get? uri = s.session.get? uri := by
  have h : uri ≠ step.uri := Ne.symm h
  cases step with
  | opened d =>
    show (s.opened d).1.session.get? uri = _
    by_cases hd : d.isHost = true
    · rw [opened_session hd, Session.get?_put]
      exact if_neg h
    · unfold opened
      rw [if_neg hd]
  | changed d =>
    show (s.changed d).1.session.get? uri = _
    cases hg : s.session.get? d.uri with
    | none => rw [changed_of_none hg]; rfl
    | some host =>
      rw [changed_session hg, Session.get?_put]
      exact if_neg h
  | closed closed =>
    show (s.closed closed).1.session.get? uri = _
    rw [closed_session, Session.get?_erase]
    exact if_neg h

/-- No new task: those that are left are for documents that a step does not touch. -/
structure Drops (s s' : Server) (step : EditorStep) : Prop where
  sound : s'.debouncer.Sound
  alarms : s'.debouncer.alarms = s.debouncer.alarms
  held : ∀ t ∈ s'.held, t ∈ s.held ∧ ¬ step.Touches t.uri
  armed : s'.debouncer.armed.Sublist s.debouncer.armed

/-- One new task, with a new ticket: it is about the version that a change made, and inside of one of
its regions. -/
structure Adds (s s' : Server) (d : ChangedDocument) (state : HostDocument) (job : InsertionJob) : Prop where
  sound : s'.debouncer.Sound
  alarms : s'.debouncer.alarms = s.debouncer.alarms + 1
  held : ∀ t ∈ s'.held, (t ∈ s.held ∧ t.uri ≠ d.uri) ∨
    t = { uri := d.uri, ticket := s.debouncer.alarms, job, phase := .finished }
  armed : ∃ rest, rest.Sublist s.debouncer.armed ∧ s'.debouncer.armed = rest ++ [s.debouncer.alarms]
  made : s'.session.get? d.uri = some state
  version : job.version = state.version
  region : (state.regionAt? job.trigger.position).isSome = true

theorem drops_of_cancel {s' : Server} {step : EditorStep} (hs : s.debouncer.Sound)
    (h : s'.debouncer = (s.debouncer.cancel step.uri).1) : Drops s s' step := by
  rw [hs.cancel_eq] at h
  refine ⟨h ▸ hs.giveUp _, by rw [h]; rfl, fun t ht => ?_, ?_⟩
  · rw [Server.held, h, Debouncer.held_giveUp, List.mem_filter] at ht
    exact ⟨ht.1, fun htouch => by simp [htouch.uri_eq] at ht⟩
  · rw [h]
    exact Debouncer.armed_giveUp_sublist ..

theorem adds_of_schedule {s' : Server} {d : ChangedDocument} {state : HostDocument} {job : InsertionJob} {delay : Nat}
    (hs : s.debouncer.Sound) (h : s'.debouncer = (s.debouncer.cancel d.uri).1.schedule d.uri delay job)
    (hmade : s'.session.get? d.uri = some state) (hversion : job.version = state.version)
    (hregion : (state.regionAt? job.trigger.position).isSome = true) : Adds s s' d state job := by
  rw [hs.cancel_eq] at h
  have hsound := (hs.giveUp (· = d.uri)).schedule d.uri delay job
  rw [← h] at hsound
  rw [(hs.giveUp (· = d.uri)).schedule_eq] at h
  refine ⟨hsound, by rw [h]; rfl, fun t ht => ?_, ⟨_, ?_, by rw [h, Debouncer.armed_spawn]; rfl⟩, hmade, hversion,
    hregion⟩
  · rw [Server.held, h, Debouncer.held_spawn, Debouncer.held_giveUp, Debouncer.held_giveUp] at ht
    rcases List.mem_append.1 ht with ht | ht
    · have ht := (List.mem_filter.1 (List.mem_filter.1 ht).1)
      exact .inl ⟨ht.1, by simpa using ht.2⟩
    · exact .inr (List.mem_singleton.1 ht)
  · exact (Debouncer.armed_giveUp_sublist ..).trans (Debouncer.armed_giveUp_sublist ..)

theorem follow_cases (hs : s.debouncer.Sound) (step : EditorStep) :
    Drops s (s.follow step).1 step ∨ ∃ d state job, step = .changed d ∧ Adds s (s.follow step).1 d state job := by
  cases step with
  | opened d =>
    have h : (s.follow (.opened d)).1.debouncer = s.debouncer := opened_debouncer s d
    refine .inl ⟨h ▸ hs, by rw [h], fun t ht => ⟨?_, id⟩, by rw [h]⟩
    rwa [held, h] at ht
  | closed uri => exact .inl (drops_of_cancel hs (closed_debouncer s uri))
  | changed d =>
    show Drops s (s.changed d).1 (.changed d) ∨ ∃ d' state job, _ = _ ∧ Adds s (s.changed d).1 d' state job
    cases hg : s.session.get? d.uri with
    | none =>
      rw [changed_of_none hg]
      exact .inl (drops_of_cancel hs rfl)
    | some host =>
      have hmade : (s.changed d).1.session.get? d.uri =
          some (HostDocument.make d.uri (Change.applyAll host.text d.changes) d.version) := by
        rw [changed_session hg, Session.get?_put, if_pos rfl]
      rcases changed_debouncer hg with hd | ⟨delay, job, hversion, hregion, hd⟩
      · exact .inl (drops_of_cancel hs hd)
      · exact .inr ⟨d, _, job, rfl, adds_of_schedule hs hd hmade hversion hregion⟩

/-! ## Tickets -/

/-- The invariant of runs: no ticket is used twice, and all were given out. -/
structure Accounted (out : Server × List Action) : Prop where
  fits : out.1.Fits
  nodup : (tickets out).Nodup
  given : ∀ n ∈ tickets out, n < out.1.debouncer.alarms

theorem Drops.fits {s' : Server} {step : EditorStep} (h : Drops s s' step) (ha : s'.awaited = s.awaited)
    (hs : s.Fits) : s'.Fits := by
  refine ⟨h.sound, fun t ht => ?_⟩
  have hold : t ∈ s.held ++ s.awaited := by
    rcases List.mem_append.1 ht with ht | ht
    · exact List.mem_append_left _ (h.held t ht).1
    · exact List.mem_append_right _ (ha ▸ ht)
  obtain ⟨hlt, hsame⟩ := hs.apart t hold
  exact ⟨h.alarms ▸ hlt, fun t' ht' => hsame t' (h.held t' ht').1⟩

/-- `Adds` keeps `Fits`, as the new ticket is above all others. -/
theorem Adds.fits {s' : Server} {d : ChangedDocument} {state : HostDocument} {job : InsertionJob}
    (h : Adds s s' d state job) (ha : s'.awaited = s.awaited) (hs : s.Fits) : s'.Fits := by
  have hcases : ∀ t ∈ s'.held ++ s'.awaited, t ∈ s.held ++ s.awaited ∨
      t = { uri := d.uri, ticket := s.debouncer.alarms, job, phase := .finished } := by
    intro t ht
    rcases List.mem_append.1 ht with ht | ht
    · exact (h.held t ht).imp_left fun ht => List.mem_append_left _ ht.1
    · exact .inl (List.mem_append_right _ (ha ▸ ht))
  refine ⟨h.sound, fun t ht => ?_⟩
  rw [h.alarms]
  rcases hcases t ht with hold | rfl
  · obtain ⟨hlt, hsame⟩ := hs.apart t hold
    refine ⟨by omega, fun t' ht' hticket => ?_⟩
    rcases h.held t' ht' with ⟨ht', -⟩ | rfl
    · exact hsame t' ht' hticket
    · simp only at hticket
      omega
  · refine ⟨Nat.lt_succ_self _, fun t' ht' hticket => ?_⟩
    rcases h.held t' ht' with ⟨ht', -⟩ | rfl
    · have hlt := (hs.apart t' (List.mem_append_left _ ht')).1
      simp only at hticket
      omega
    · rfl

theorem fits_follow (h : s.Fits) (step : EditorStep) : (s.follow step).1.Fits := by
  have hawaited : (s.follow step).1.awaited = s.awaited := by
    rw [awaited, (s.follow_frame step).2]; rfl
  rcases follow_cases h.sound step with hdrops | ⟨d, state, job, -, hadds⟩
  · exact hdrops.fits hawaited h
  · exact hadds.fits hawaited h

theorem fits_step (h : s.Fits) (w : Surroundings) (e : Event) : (s.step w e).1.Fits := by
  rcases s.step_cases w e with ⟨-, hspends⟩ | ⟨step, -, hstep⟩
  · exact hspends.fits h
  · rw [hstep]
    exact fits_follow h step

namespace Accounted

variable {past : List Action}

theorem of_subperm {out : Server × List Action} {l : List Nat} (hfits : out.1.Fits) (hl : l.Nodup)
    (hlt : ∀ n ∈ l, n < out.1.debouncer.alarms) (hsub : (tickets out).Subperm l) : Accounted out := by
  refine ⟨hfits, ?_, fun n hn => hlt n (hsub.subset hn)⟩
  obtain ⟨l', hperm, hl'⟩ := hsub
  exact hperm.nodup_iff.1 (hl.sublist hl')

theorem follow (h : Accounted (s, past)) (step : EditorStep) :
    Accounted ((s.follow step).1, past ++ (s.follow step).2) := by
  obtain ⟨hinsertions, hwaiting⟩ := s.follow_frame step
  have htickets : tickets ((s.follow step).1, past ++ (s.follow step).2) = (Action.insertions past).map (·.1) ++
      ((s.follow step).1.debouncer.armed ++ s.awaited.map (·.ticket)) := by
    simp [tickets, hinsertions, pending, awaited, hwaiting]
  have hfits := fits_follow h.fits step
  rcases follow_cases h.fits.sound step with hdrops | ⟨d, state, job, rfl, hadds⟩
  · refine of_subperm hfits h.nodup (hdrops.alarms ▸ h.given) ?_
    rw [htickets]
    exact ((hdrops.armed.append_right _).append_left _).subperm
  · -- the new ticket was not given out before
    obtain ⟨rest, hrest, harmed⟩ := hadds.armed
    have hnew : (s.debouncer.alarms :: tickets (s, past)).Nodup :=
      List.nodup_cons.2 ⟨fun hn => Nat.lt_irrefl _ (h.given _ hn), h.nodup⟩
    refine of_subperm hfits hnew (fun n hn => ?_) ?_
    · rw [hadds.alarms]
      rcases List.mem_cons.1 hn with rfl | hn
      · exact Nat.lt_succ_self _
      · exact Nat.lt_succ_of_lt (h.given n hn)
    · rw [htickets, harmed, List.append_assoc, List.singleton_append, ← List.append_assoc]
      refine List.perm_middle.subperm.trans ((List.subperm_cons _).2 ?_)
      rw [List.append_assoc]
      exact ((hrest.append_right _).append_left _).subperm

/-- Every step keeps tickets `Accounted` for. -/
theorem step (h : Accounted (s, past)) (w : Surroundings) (e : Event) :
    Accounted ((s.step w e).1, past ++ (s.step w e).2) := by
  rcases s.step_cases w e with ⟨-, hspends⟩ | ⟨step, -, hstep⟩
  · refine of_subperm (hspends.fits h.fits) h.nodup (hspends.alarms ▸ h.given) ?_
    have hsub := (List.subperm_append_left ((Action.insertions past).map Prod.fst)).2 hspends.tickets
    simpa [tickets] using hsub
  · rw [hstep]
    exact h.follow step

end Accounted

theorem run_accounted (w : Surroundings) (events : List Event) : Accounted (run w {} events) := by
  induction events using List.reverseRecOn with
  | nil => exact ⟨⟨.empty, fun t ht => (by cases ht)⟩, List.nodup_nil, fun n hn => (by cases hn)⟩
  | append_singleton events e ih =>
    rw [run_snoc]
    exact ih.step w e

/-! ## What a step leaves of the tasks -/

/-- A task that is `held` was held before, and its document was not touched, or the step told of the change
that set it off. -/
theorem held_step (hs : s.Fits) {w : Surroundings} {e : Event} {t : Task InsertionJob} (ht : t ∈ (s.step w e).1.held) :
    (t ∈ s.held ∧ ∀ step, s.told? e = some step → ¬ step.Touches t.uri) ∨
      ∃ d state, s.told? e = some (.changed d) ∧ d.uri = t.uri ∧ t.ticket = s.debouncer.alarms ∧
        (s.step w e).1.session.get? d.uri = some state ∧ t.job.version = state.version ∧
        (state.regionAt? t.job.trigger.position).isSome = true := by
  rcases s.step_cases w e with ⟨htold, hspends⟩ | ⟨step, htold, hstep⟩
  · rw [hspends.held] at ht
    exact .inl ⟨ht, fun step h => by rw [htold] at h; cases h⟩
  · rw [hstep] at ht ⊢
    rw [htold]
    rcases follow_cases hs.sound step with hdrops | ⟨d, state, job, rfl, hadds⟩
    · obtain ⟨hold, huntouched⟩ := hdrops.held t ht
      exact .inl ⟨hold, fun step' h => Option.some.inj h ▸ huntouched⟩
    · rcases hadds.held t ht with ⟨hold, hne⟩ | rfl
      · exact .inl ⟨hold, fun step' h => Option.some.inj h ▸ Ne.symm hne⟩
      · exact .inr ⟨d, state, rfl, rfl, rfl, hadds.made, hadds.version, hadds.region⟩

/-- Only a step without news of documents inserts something, and that is what a task asks for. -/
theorem exists_held_of_insertion {w : Surroundings} {e : Event} (hfits : s.Fits) {x : Nat × AutoInsert.Insertion}
    (hx : x ∈ Action.insertions (s.step w e).2) :
    s.told? e = none ∧ ∃ t ∈ s.held, t.ticket = x.1 ∧ x.2.Serves t := by
  rcases s.step_cases w e with ⟨htold, hspends⟩ | ⟨step, -, hstep⟩
  · exact ⟨htold, hspends.serves hfits x hx⟩
  · rw [hstep, (s.follow_frame step).1] at hx
    cases hx

theorem get?_step {w : Surroundings} {e : Event} {uri : Url} (h : ∀ step, s.told? e = some step → step.uri ≠ uri) :
    (s.step w e).1.session.get? uri = s.session.get? uri := by
  rcases s.step_cases w e with ⟨-, hspends⟩ | ⟨step, htold, hstep⟩
  · rw [hspends.session]
  · rw [hstep]
    exact follow_get? (h step htold)

/-! ## At most one insertion -/

/-- As long as nothing `Touches` a document, all insertions into it have the ticket of its task. -/
theorem ticket_of_untouched (w : Surroundings) {uri : Url} {n : Nat} {events : List Event} (hfits : s.Fits)
    (hheld : ∀ t ∈ s.held, t.uri = uri → t.ticket = n) (h : ∀ step ∈ told w s events, ¬ step.Touches uri) :
    ∀ x ∈ Action.insertions (run w s events).2, x.2.uri = uri → x.1 = n := by
  induction events generalizing s with
  | nil => intro x hx; cases hx
  | cons e events ih =>
    intro x hx huri
    rw [run, Action.insertions_append, List.mem_append] at hx
    rcases hx with hx | hx
    · obtain ⟨-, t, ht, hticket, hserves⟩ := exists_held_of_insertion hfits hx
      rw [← hticket]
      exact hheld t ht (hserves.1.symm.trans huri)
    · refine ih (fits_step hfits w e) (fun t ht htu => ?_)
        (fun step hstep => h step (List.mem_append_right _ hstep)) x hx huri
      rcases held_step hfits ht with ⟨hold, -⟩ | ⟨d, state, htold, hd, -⟩
      · exact hheld t hold htu
      · have huntouched := h (.changed d) (List.mem_append_left _ (by rw [htold]; simp))
        exact absurd (hd.trans htu) huntouched

/-- From a change on, and as long as nothing `Touches` its document, there is at most one insertion. -/
theorem insertions_since_change_le_one (w : Surroundings) (before : List Event) (c : Event) (since : List Event)
    {d : ChangedDocument} (hc : (run w {} before).1.told? c = some (.changed d))
    (h : ∀ step ∈ told w (run w {} (before ++ [c])).1 since, ¬ step.Touches d.uri) :
    ((Action.insertions ((run w {} before).1.run w (c :: since)).2).filter fun x => x.2.uri = d.uri).length ≤ 1 := by
  have hbefore := run_accounted w before
  rw [run_snoc] at h
  -- right after the change the only task of the document is the new one, if any
  have hheld : ∀ t ∈ ((run w {} before).1.step w c).1.held, t.uri = d.uri →
      t.ticket = (run w {} before).1.debouncer.alarms := by
    intro t ht htu
    rcases held_step hbefore.fits ht with ⟨-, huntouched⟩ | ⟨d', state, -, -, hticket, -⟩
    · exact absurd htu.symm (huntouched _ hc)
    · exact hticket
  have hticket : ∀ x ∈ Action.insertions ((run w {} before).1.run w (c :: since)).2, x.2.uri = d.uri →
      x.1 = (run w {} before).1.debouncer.alarms := by
    intro x hx
    rw [run, Action.insertions_append, List.mem_append] at hx
    rcases hx with hx | hx
    · have hnone := (exists_held_of_insertion hbefore.fits hx).1
      rw [hc] at hnone
      cases hnone
    · exact ticket_of_untouched w (fits_step hbefore.fits w c) hheld h x hx
  -- and no ticket is used twice in the whole run
  have hnodup : ((Action.insertions ((run w {} before).1.run w (c :: since)).2).map (·.1)).Nodup := by
    have hall := (run_accounted w (before ++ c :: since)).nodup
    rw [run_append, tickets, Action.insertions_append, List.map_append] at hall
    exact (List.nodup_append.1 (List.nodup_append.1 hall).1).2.1
  exact Keyed.length_filter_le_one Prod.fst hnodup fun x hx huri => hticket x hx (by simpa using huri)

end Server

end EmbeddedMarkup
