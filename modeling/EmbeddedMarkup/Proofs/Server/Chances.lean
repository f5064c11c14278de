/-
The chances that automatic insertions have. A task has one chance to become an insertion as long as it
waits for its alarm or for the markup server: its ticket is `pending`, and used up with the insertion.
Whatever the server does on its own, or for any event that tells of no document, only `Spends` chances;
and what is inserted is what a task asks for that is `held` at that moment.
-/
import EmbeddedMarkup.Proofs.Debouncer.Tasks
import EmbeddedMarkup.Proofs.Server.Documents
import EmbeddedMarkup.Proofs.Session.Answers
import EmbeddedMarkup.Server.Step
import Mathlib.Data.List.Perm.Subperm

namespace EmbeddedMarkup

open AutoInsert (Insertion)

/-- The insertions among actions, with their tickets. -/
def Action.insertions (actions : List Action) : List (Nat × Insertion) :=
  actions.filterMap fun
    | .insert ticket insertion => some (ticket, insertion)
    | _ => none

theorem Action.mem_insertions_iff {actions : List Action} {ticket : Nat} {insertion : Insertion} :
    (ticket, insertion) ∈ insertions actions ↔ .insert ticket insertion ∈ actions := by
  unfold insertions
  rw [List.mem_filterMap]
  constructor
  · rintro ⟨action, haction, h⟩
    cases action with
    | insert n i => cases h; exact haction
    | _ => cases h
  · intro h
    exact ⟨_, h, rfl⟩

@[simp] theorem Action.insertions_nil : insertions [] = [] := rfl

@[simp] theorem Action.insertions_respond (request : RequestId) (result : Except Refusal Json) (actions : List Action) :
    insertions (.respond request result :: actions) = insertions actions := rfl

@[simp] theorem Action.insertions_append (a b : List Action) : insertions (a ++ b) = insertions a ++ insertions b :=
  List.filterMap_append

@[simp] theorem Action.insertions_ofEffects (effects : List Effect) : insertions (ofEffects effects) = [] := by
  induction effects with
  | nil => rfl
  | cons e effects ih => cases e <;> exact ih

/-- The task that goes on when the markup server responds. -/
def Continuation.task? : Continuation → Option (Task InsertionJob)
  | .insertion task _ => some task.label
  | _ => none

/-- Whether an insertion is what a task asks for. -/
def AutoInsert.Insertion.Serves (i : Insertion) (t : Task InsertionJob) : Prop :=
  i.uri = t.uri ∧ i.version = t.job.version ∧ i.position = t.job.trigger.position

namespace Server

/-- The tasks that are neither replaced nor cancelled. -/
def held (s : Server) : List (Task InsertionJob) :=
  s.debouncer.held

/-- The tasks that wait for the markup server, with those that were given up meanwhile. -/
def awaited (s : Server) : List (Task InsertionJob) :=
  s.waiting.filterMap fun w => w.2.task?

/-- The tickets that may still be used: those of tasks that are armed, and of the `awaited` ones. -/
def pending (s : Server) : List Nat :=
  s.debouncer.armed ++ s.awaited.map (·.ticket)

/-- The tickets that are used or may still be used when a run has come to `out`. -/
def tickets (out : Server × List Action) : List Nat :=
  (Action.insertions out.2).map (·.1) ++ out.1.pending

/-- The debouncer is sound, and tickets tell tasks apart: each was given out, and a task that is held is the
only one of its ticket. -/
structure Fits (s : Server) : Prop where
  sound : s.debouncer.Sound
  apart : ∀ t ∈ s.held ++ s.awaited,
    t.ticket < s.debouncer.alarms ∧ ∀ t' ∈ s.held, t'.ticket = t.ticket → t' = t

/-! ## Spending chances -/

/-- What happens without news of documents: all handles and tasks stay, each chance is taken, lost or kept,
and what is inserted is what a task asks for that is held. -/
structure Spends (s : Server) (out : Server × List Action) : Prop where
  session : out.1.session = s.session
  alarms : out.1.debouncer.alarms = s.debouncer.alarms
  handles : out.1.debouncer.handles = s.debouncer.handles
  labels : out.1.debouncer.tasks.map Task.label = s.debouncer.tasks.map Task.label
  awaited : out.1.awaited ⊆ s.held ++ s.awaited
  tickets : (tickets out).Subperm s.pending
  serves : s.Fits → ∀ x ∈ Action.insertions out.2, ∃ t ∈ s.held, t.ticket = x.1 ∧ x.2.Serves t

namespace Spends

variable {s s₁ : Server} {out : Server × List Action}

theorem held (h : Spends s out) : out.1.held = s.held :=
  Debouncer.held_eq_of_labels h.labels

theorem fits (h : Spends s out) (hs : s.Fits) : out.1.Fits := by
  refine ⟨hs.sound.of_labels h.labels h.handles (Nat.le_of_eq h.alarms.symm), ?_⟩
  rw [h.held, h.alarms]
  intro t ht
  rcases List.mem_append.1 ht with ht | ht
  · exact hs.apart t (List.mem_append_left _ ht)
  · exact hs.apart t (h.awaited ht)

theorem trans {actions more : List Action} {s₂ : Server} (h : Spends s (s₁, actions)) (h' : Spends s₁ (s₂, more)) :
    Spends s (s₂, actions ++ more) := by
  refine ⟨h'.session.trans h.session, h'.alarms.trans h.alarms, h'.handles.trans h.handles,
    h'.labels.trans h.labels, fun t ht => ?_, ?_, fun hs x hx => ?_⟩
  · have ht := h'.awaited ht
    rw [h.held] at ht
    rcases List.mem_append.1 ht with ht | ht
    · exact List.mem_append_left _ ht
    · exact h.awaited ht
  · -- what the second part spends is among what the first part left
    have hsecond := (List.subperm_append_left ((Action.insertions actions).map Prod.fst)).2 h'.tickets
    have hboth := hsecond.trans h.tickets
    simpa [Server.tickets] using hboth
  · rw [Action.insertions_append] at hx
    rcases List.mem_append.1 hx with hx | hx
    · exact h.serves hs x hx
    · obtain ⟨t, ht, hx⟩ := h'.serves (h.fits hs) x hx
      exact ⟨t, h.held ▸ ht, hx⟩

/-- To `Spends`, nothing but session, debouncer and what is waited for matters. -/
theorem idle (hs : out.1.session = s.session) (hd : out.1.debouncer = s.debouncer) (hw : out.1.waiting = s.waiting)
    (ha : Action.insertions out.2 = []) : Spends s out := by
  have hawaited : out.1.awaited = s.awaited := by rw [Server.awaited, hw]; rfl
  refine ⟨hs, by rw [hd], by rw [hd], by rw [hd], ?_, ?_, fun _ x hx => ?_⟩
  · rw [hawaited]
    exact List.subset_append_right ..
  · rw [Server.tickets, ha, pending, hd, hawaited]
    exact List.Subperm.refl _
  · rw [ha] at hx
    cases hx

theorem refl (s : Server) : Spends s (s, []) :=
  idle rfl rfl rfl rfl

/-- Of the actions only insertions matter. -/
theorem congr {actions actions' : List Action} (h : Spends s (s₁, actions))
    (ha : Action.insertions actions' = Action.insertions actions) : Spends s (s₁, actions') := by
  refine ⟨h.session, h.alarms, h.handles, h.labels, h.awaited, ?_, fun hs x hx => h.serves hs x (ha ▸ hx)⟩
  rw [Server.tickets, ha]
  exact h.tickets

end Spends

variable {s : Server}

/-- A task that goes on without an alarm, by `setPhase`, has one chance less. -/
theorem spends_setPhase (ticket : Nat) (phase : Phase) (h : phase.isArmed = false) :
    Spends s (s.setPhase ticket phase, []) := by
  refine ⟨rfl, rfl, rfl, Debouncer.labels_setPhase .., List.subset_append_right .., ?_, fun _ x hx => (by cases hx)⟩
  show ((s.debouncer.setPhase ticket phase).armed ++ s.awaited.map (·.ticket)).Subperm s.pending
  rw [Debouncer.armed_setPhase _ _ h]
  exact (List.filter_sublist.append_right _).subperm

/-- Something else than an insertion may `wait`. -/
theorem spends_wait (n : Nat) (next : Continuation) (h : next.task? = none) : Spends s (s.wait n next, []) := by
  have hawaited : (s.wait n next).awaited = s.awaited := by simp [awaited, wait, h]
  refine ⟨rfl, rfl, rfl, rfl, ?_, ?_, fun _ x hx => (by cases hx)⟩
  · rw [hawaited]
    exact List.subset_append_right ..
  · rw [tickets, pending, hawaited]
    exact List.Subperm.refl _

/-! ## Questions and insertions -/

/-- `consult` is between the client and the markup server. -/
theorem consult_frame (s : Server) (i : Inquiry) (q : Query) :
    (s.consult i q).1.session = s.session ∧ (s.consult i q).1.debouncer = s.debouncer ∧
      (s.consult i q).1.waiting = s.waiting ∧ Action.insertions (s.consult i q).2.1 = [] := by
  unfold consult
  split
  · exact ⟨rfl, rfl, rfl, rfl⟩
  · dsimp only
    split <;> exact ⟨rfl, rfl, rfl, Action.insertions_ofEffects _⟩

theorem spends_consult (i : Inquiry) (q : Query) : Spends s ((s.consult i q).1, (s.consult i q).2.1) := by
  obtain ⟨hs, hd, hw, ha⟩ := s.consult_frame i q
  exact .idle hs hd hw ha

theorem spends_ask (request : RequestId) (question : Question) : Spends s (s.ask request question) := by
  unfold ask
  dsimp only
  split
  · exact .idle rfl rfl rfl rfl
  · rename_i i _
    have h := spends_consult (s := s) i question.query
    split
    · rename_i s' actions n hc
      rw [hc] at h
      have hwait := h.trans (spends_wait n (.answer request i question.query) rfl)
      rwa [List.append_nil] at hwait
    · rename_i s' actions hc
      rw [hc] at h
      exact h.trans (.idle rfl rfl rfl rfl)

/-- The ticket of a task that waited for its alarm moves on to those that wait for the markup server. -/
theorem spends_suspend {task : Task InsertionJob} (hheld : task.label ∈ s.held)
    (harmed : task.ticket ∈ s.debouncer.armed) (n : Nat) (i : Inquiry) :
    Spends s ((s.setPhase task.ticket .suspended).wait n (.insertion task i), []) := by
  have hawaited : ((s.setPhase task.ticket .suspended).wait n (.insertion task i)).awaited =
      s.awaited ++ [task.label] := by
    simp [awaited, wait, setPhase, Continuation.task?]
  refine ⟨rfl, rfl, rfl, Debouncer.labels_setPhase .., ?_, ?_, fun _ x hx => (by cases hx)⟩
  · rw [hawaited]
    intro t ht
    rcases List.mem_append.1 ht with ht | ht
    · exact List.mem_append_right _ ht
    · rw [List.mem_singleton] at ht
      exact List.mem_append_left _ (ht ▸ hheld)
  · have hmoved : (task.ticket :: s.debouncer.armed.filter fun n => n ≠ task.ticket).Subperm s.debouncer.armed :=
      List.cons_subperm_of_not_mem_of_mem (by simp) harmed List.filter_sublist.subperm
    have hperm : (tickets ((s.setPhase task.ticket .suspended).wait n (.insertion task i), [])).Perm
        ((task.ticket :: s.debouncer.armed.filter fun n => n ≠ task.ticket) ++ s.awaited.map (·.ticket)) := by
      show ((s.debouncer.setPhase task.ticket .suspended).armed ++ _).Perm _
      rw [hawaited, Debouncer.armed_setPhase _ _ rfl, List.map_append, ← List.append_assoc]
      exact List.perm_append_comm
    exact hperm.subperm.trans ((List.subperm_append_right _).2 hmoved)

/-- `startInsertion` starts no task that was given up, and any other one is `held`. -/
theorem spends_startInsertion {task : Task InsertionJob} (htask : task ∈ s.debouncer.tasks) {alarm : Alarm}
    (halarm : task.phase.alarm? = some alarm) : Spends s (s.startInsertion task) := by
  unfold startInsertion
  dsimp only
  split
  · exact spends_setPhase task.ticket .finished rfl
  · rename_i hkept
    have hkept : task.cancelled = false := by simpa using hkept
    have hheld : task.label ∈ s.held := Debouncer.mem_held htask hkept
    have harmed : task.ticket ∈ s.debouncer.armed := Debouncer.mem_armed htask hkept halarm
    split
    · exact spends_setPhase task.ticket .finished rfl
    · rename_i i _
      have h := spends_consult (s := s) i (.autoInsert task.job.trigger.kind)
      have hdebouncer := (s.consult_frame i (.autoInsert task.job.trigger.kind)).2.1
      split
      · rename_i s' actions n hc
        rw [hc] at h hdebouncer
        have hsuspend : Spends s' ((s'.setPhase task.ticket .suspended).wait n (.insertion task i), []) :=
          spends_suspend (h.held ▸ hheld) (hdebouncer ▸ harmed) n i
        have hboth := h.trans hsuspend
        rwa [List.append_nil] at hboth
      · rename_i s' actions hc
        rw [hc] at h
        have hboth := h.trans (spends_setPhase task.ticket .finished rfl)
        rwa [List.append_nil] at hboth

theorem spends_startDue (now count : Nat) : Spends s (startDue now count s) := by
  induction count generalizing s with
  | zero => exact .refl s
  | succ count ih =>
    unfold startDue
    split
    · exact .refl s
    · rename_i alarm task hnext
      obtain ⟨htask, halarm⟩ := Debouncer.mem_of_next? hnext
      exact (spends_startInsertion htask halarm).trans ih

theorem spends_tick (now : Nat) : Spends s (s.tick now) := by
  have hpoll : Spends s ({ s with debouncer := s.debouncer.poll.setTime now }, []) := by
    refine ⟨rfl, rfl, rfl, s.debouncer.labels_poll, List.subset_append_right .., ?_, fun _ x hx => (by cases hx)⟩
    show (s.debouncer.poll.armed ++ s.awaited.map (·.ticket)).Subperm s.pending
    exact (s.debouncer.armed_poll_sublist.append_right _).subperm
  exact hpoll.trans (spends_startDue now _)

/-! ## Responses of the markup server -/

/-- The server when nothing waits any more for the response to a request. -/
def settled (s : Server) (n : Nat) : Server :=
  { s with waiting := s.waiting.filter fun w => w.1 ≠ n }

theorem subperm_map {α β : Type} (f : α → β) {a b : List α} (h : a.Subperm b) : (a.map f).Subperm (b.map f) := by
  obtain ⟨l, hperm, hsub⟩ := h
  exact ⟨l.map f, hperm.map f, hsub.map f⟩

/-- What no longer waits for a response is gone from the `awaited` tasks. -/
theorem awaited_settled {n : Nat} {next : Continuation} (h : s.waiting.lookup n = some next) :
    (next.task?.toList ++ (s.settled n).awaited).Subperm s.awaited := by
  obtain ⟨front, back, hwaiting, -⟩ := List.lookup_eq_some_iff.1 h
  have hall : s.awaited = front.filterMap (·.2.task?) ++ (next.task?.toList ++ back.filterMap (·.2.task?)) := by
    rw [awaited, hwaiting, List.filterMap_append, List.filterMap_cons]
    cases next.task? <;> rfl
  have hleft : (s.settled n).awaited = (front.filter fun w => w.1 ≠ n).filterMap (·.2.task?) ++
      (back.filter fun w => w.1 ≠ n).filterMap (·.2.task?) := by
    simp [awaited, settled, hwaiting]
  have hsub : ∀ l : List (Nat × Continuation),
      ((l.filter fun w => w.1 ≠ n).filterMap (·.2.task?)).Sublist (l.filterMap (·.2.task?)) :=
    fun l => List.filter_sublist.filterMap _
  rw [hall, hleft]
  refine (List.perm_append_comm_assoc ..).subperm.trans ?_
  exact ((hsub front).append ((hsub back).append_left _)).subperm

/-- The chance of what waited for a response is lost, unless it is taken. -/
theorem spends_settled {n : Nat} {next : Continuation} (h : s.waiting.lookup n = some next) :
    Spends s (s.settled n, []) := by
  have hawaited := (List.sublist_append_right ..).subperm.trans (awaited_settled h)
  refine ⟨rfl, rfl, rfl, rfl, fun t ht => List.mem_append_right _ (hawaited.subset ht), ?_, fun _ x hx => (by cases hx)⟩
  show (s.debouncer.armed ++ (s.settled n).awaited.map (·.ticket)).Subperm s.pending
  exact (List.subperm_append_left _).2 (subperm_map _ hawaited)

theorem serves_of_conclude? {session : Session} {settings : AutoInsertSettings} {task : Task InsertionJob}
    {outcome : Option String} {insertion : Insertion}
    (h : AutoInsert.conclude? session settings task.uri task.job.version task.job.trigger outcome = some insertion) :
    insertion.Serves task.label := by
  cases outcome with
  | none => cases h
  | some suggestion =>
    rw [AutoInsert.conclude?_some] at h
    split at h
    · cases h
      exact ⟨rfl, rfl, rfl⟩
    · cases h

/-- The chance of a task that waited for a response is taken if the task is still held. -/
theorem spends_insert {n : Nat} {task : Task InsertionJob} {i : Inquiry}
    (h : s.waiting.lookup n = some (.insertion task i)) (hholds : s.debouncer.holds task.ticket = true)
    {insertion : Insertion} (hserves : insertion.Serves task.label) :
    Spends s (s.settled n, [.insert task.ticket insertion]) := by
  have hawaited := awaited_settled h
  refine ⟨rfl, rfl, rfl, rfl, (spends_settled h).awaited, ?_, fun hs x hx => ?_⟩
  · have hmap : (task.ticket :: (s.settled n).awaited.map (·.ticket)).Subperm (s.awaited.map (·.ticket)) :=
      subperm_map Task.ticket hawaited
    have hperm : (tickets (s.settled n, [.insert task.ticket insertion])).Perm
        (s.debouncer.armed ++ task.ticket :: (s.settled n).awaited.map (·.ticket)) := by
      show (task.ticket :: (s.debouncer.armed ++ (s.settled n).awaited.map (·.ticket))).Perm _
      exact List.perm_middle.symm
    exact hperm.subperm.trans ((List.subperm_append_left _).2 hmap)
  · -- the task that is held under the ticket is the one that waited
    have hx : x = (task.ticket, insertion) := List.mem_singleton.1 hx
    subst hx
    obtain ⟨t, ht, hticket⟩ := hs.sound.exists_held hholds
    have hmem : task.label ∈ s.awaited := hawaited.subset (List.mem_append_left _ (List.mem_singleton_self _))
    have heq := (hs.apart _ (List.mem_append_right _ hmem)).2 t ht hticket
    exact ⟨t, ht, hticket, heq ▸ hserves⟩

theorem spends_concludeInsertion {n : Nat} {task : Task InsertionJob} {i : Inquiry}
    (h : s.waiting.lookup n = some (.insertion task i)) (response : Response) :
    Spends s ((s.settled n).concludeInsertion task i response) := by
  unfold concludeInsertion
  dsimp only
  split
  · rename_i hholds
    split
    · have hfinish := (spends_settled h).trans (spends_setPhase task.ticket .finished rfl)
      exact hfinish.congr (Action.insertions_ofEffects _)
    · rename_i insertion hinsertion
      refine (spends_insert h hholds (serves_of_conclude? hinsertion)).congr ?_
      rw [Action.insertions_append, Action.insertions_ofEffects, List.nil_append]
  · exact spends_settled h

theorem spends_concludeAnswer (request : RequestId) (i : Inquiry) (q : Query) (response : Response) :
    Spends s (s.concludeAnswer request i q response) := by
  refine .idle rfl rfl rfl ?_
  unfold concludeAnswer answer
  simp

theorem spends_concludeHandshake (request : RequestId) (response : Response) :
    Spends s (s.concludeHandshake request response) := by
  unfold concludeHandshake
  split
  · exact .refl s
  · split
    · exact .idle rfl rfl rfl rfl
    · exact .idle rfl rfl rfl (by simp [ready])

theorem spends_concludeShutdown (request : RequestId) (response : Response) :
    Spends s (s.concludeShutdown request response) := by
  unfold concludeShutdown onClient
  cases s.markup with
  | none => exact .idle rfl rfl rfl rfl
  | some c => exact .idle rfl rfl rfl (by simp)

theorem spends_resume (n : Nat) (response : Response) : Spends s (s.resume n response) := by
  unfold resume
  split
  · exact .refl s
  · rename_i next hnext
    have hsettled := spends_settled hnext
    cases next with
    | handshake request => exact hsettled.trans (spends_concludeHandshake request response)
    | answer request i q => exact hsettled.trans (spends_concludeAnswer request i q response)
    | insertion task i => exact spends_concludeInsertion hnext response
    | shutdown request => exact hsettled.trans (spends_concludeShutdown request response)

theorem spends_absorb (effects : List Effect) : Spends s (s.absorb effects) := by
  induction effects generalizing s with
  | nil => exact .refl s
  | cons e effects ih =>
    cases e with
    | settle n response => exact (spends_resume n response).trans ih
    | write m =>
      have h : Spends s (s, Action.ofEffects [.write m]) := .idle rfl rfl rfl rfl
      exact h.trans ih
    | log line =>
      have h : Spends s (s, Action.ofEffects [.log line]) := .idle rfl rfl rfl rfl
      exact h.trans ih

theorem spends_markupStep (f : Client → Client × List Effect) : Spends s (s.markupStep f) := by
  unfold markupStep
  cases s.markup with
  | none => exact .refl s
  | some c =>
    have hclient : Spends s ({ s with markup := some (f c).1 }, []) := .idle rfl rfl rfl rfl
    exact hclient.trans (spends_absorb _)

/-! ## Requests -/

theorem spends_withParams {α : Type} (request : RequestId) (read : Json → Option α) (params : Option Json)
    {use : α → Server × List Action} (h : ∀ a, Spends s (use a)) : Spends s (s.withParams request read params use) := by
  unfold withParams
  split
  · exact .idle rfl rfl rfl rfl
  · exact h _

theorem spends_serve? {request : RequestId} {method : String} {params : Option Json} {out : Server × List Action}
    (h : s.serve? request method params = some out) : Spends s out := by
  unfold serve? at h
  split at h
  · cases h
    exact spends_withParams _ _ _ fun _ => .idle rfl rfl rfl rfl
  · split at h
    · cases h
      exact .refl s
    · split at h
      · cases h
        exact spends_withParams _ _ _ (spends_ask request)
      · cases h
        exact spends_withParams _ _ _ fun _ => .idle rfl rfl rfl rfl
      · cases h

theorem spends_meet (w : Surroundings) (request : RequestId) (place : Workplace) :
    Spends s (s.meet w request place) := by
  unfold meet
  dsimp only
  split
  · exact .idle rfl rfl rfl rfl
  · split
    · exact .idle rfl rfl rfl rfl
    · rename_i c n _
      have hclient : Spends s ({ s with
          settings := ((rootOf place).map fun dir => (Settings.discover w.files dir).1).getD {},
          stage := .initializing, markup := some c }, []) := .idle rfl rfl rfl rfl
      exact hclient.trans (spends_wait n (.handshake request) rfl)

theorem spends_shutdown (request : RequestId) : Spends s (s.shutdown request) := by
  unfold shutdown
  split
  · exact .idle rfl rfl rfl rfl
  · split
    · rename_i c' n _
      have hclient : Spends s ({ s with markup := some c' }, []) := .idle rfl rfl rfl rfl
      exact hclient.trans (spends_wait n (.shutdown request) rfl)
    · exact .idle rfl rfl rfl (by simp)

theorem spends_request (w : Surroundings) (request : RequestId) (method : String) (params : Option Json) :
    Spends s (s.request w request method params) := by
  have hrespond : ∀ r, Spends s (s, [.respond request (.error r)]) := fun r => .idle rfl rfl rfl rfl
  unfold Server.request
  dsimp only
  split
  · split
    · exact spends_withParams _ _ _ (spends_meet w request)
    · exact hrespond _
  · split
    · exact hrespond _
    · have hstage : Spends s ({ s with stage := .shutDown }, []) := .idle rfl rfl rfl rfl
      split
      · exact hstage.trans (spends_shutdown request)
      · exact .idle rfl rfl rfl rfl
  · exact .idle rfl rfl rfl rfl
  · split
    · split
      · exact .refl s
      · exact hrespond _
    · rename_i out hout
      split
      · exact hrespond _
      · exact spends_serve? hout

end Server

end EmbeddedMarkup
