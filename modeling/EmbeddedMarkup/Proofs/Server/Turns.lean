/-
What the handlers of the server do to the stream of messages for the markup server, which is what was
written and what waits in the `queue` of the client. A handler `Keeps` the stream: it `Grows` by messages
that the session of that moment allows, or a part of it is left when the client is lost. The documents
that the client notes as held stay virtual documents of the session, which is what `Follows` says.
-/
import EmbeddedMarkup.Proofs.Markup.Account
import EmbeddedMarkup.Proofs.Server.Documents
import EmbeddedMarkup.Server.Step

namespace EmbeddedMarkup

open MarkupView (replay)

/-- The messages to the markup server among actions. -/
def Action.written (actions : List Action) : List Outgoing :=
  actions.filterMap fun
    | .write m => some m
    | _ => none

theorem Action.written_append (a b : List Action) : written (a ++ b) = written a ++ written b :=
  List.filterMap_append

theorem Action.written_ofEffects (effects : List Effect) : written (ofEffects effects) = Effect.written effects := by
  induction effects with
  | nil => rfl
  | cons e effects ih =>
    cases e with
    | write m => exact congrArg (m :: ·) ih
    | settle id response => exact ih
    | log line => exact ih

namespace Server

/-- The messages to the markup server that are not written yet. -/
def queue (s : Server) : List Outgoing :=
  s.markup.elim [] (·.queue)

/-- All that was sent to the markup server when a run has come to `out`. -/
def sent (out : Server × List Action) : List Outgoing :=
  Action.written out.2 ++ out.1.queue

/-! ## The invariant -/

/-- The invariant of runs of which `past` was written so far: the client's account is right, and the
server holds documents of the session only. -/
structure Follows (s : Server) (past : List Outgoing) : Prop where
  wf : s.session.WF
  start : s.stage = .uninitialized → s.markup = none ∧ past = []
  told : ∀ c, s.markup = some c → c.Told past
  held : ∀ c, s.markup = some c → ∀ d ∈ c.documents, s.session.Has d.uri

/-- What a step does: it keeps the invariant, and either only a part is left of what was sent, or it
grows by what the session allows. -/
structure Keeps (s : Server) (past : List Outgoing) (out : Server × List Action) : Prop where
  follows : out.1.Follows (past ++ Action.written out.2)
  grows : past ++ sent out <+: past ++ s.queue ∨ s.session.Grows (past ++ s.queue) (past ++ sent out)

/-- What happens at once inside of a step: the session stays as it is, nothing is written, and the
client may be lost but none is found. Turns follow one another. -/
structure Turn (s : Server) (out : Server × List Action) : Prop where
  session : out.1.session = s.session
  quiet : Action.written out.2 = []
  silent : s.markup = none → out.1.markup = none
  follows : ∀ past, s.Follows past → out.1.Follows past ∧
    (out.1.markup = none ∨ s.session.Grows (past ++ s.queue) (past ++ out.1.queue))

theorem Turn.keeps {s : Server} {out : Server × List Action} {past : List Outgoing} (h : Turn s out)
    (hs : s.Follows past) : Keeps s past out := by
  obtain ⟨hf, hg⟩ := h.follows past hs
  refine ⟨by rw [h.quiet, List.append_nil]; exact hf, ?_⟩
  rw [sent, h.quiet, List.nil_append]
  rcases hg with hnone | hg
  · refine .inl ?_
    rw [show out.1.queue = [] by rw [queue, hnone]; rfl, List.append_nil]
    exact List.prefix_append ..
  · exact .inr hg

namespace Turn

variable {s s₁ : Server} {out out' : Server × List Action}

theorem trans {actions more : List Action} {s₂ : Server} (h : Turn s (s₁, actions)) (h' : Turn s₁ (s₂, more)) :
    Turn s (s₂, actions ++ more) := by
  refine ⟨h'.session.trans h.session, ?_, fun hs => h'.silent (h.silent hs), fun past hs => ?_⟩
  · rw [Action.written_append, h.quiet, h'.quiet, List.append_nil]
  · obtain ⟨hf, hg⟩ := h.follows past hs
    obtain ⟨hf', hg'⟩ := h'.follows past hf
    refine ⟨hf', ?_⟩
    -- a client that is lost stays lost, and otherwise the stream grows twice
    rcases hg with hnone | hg
    · exact .inl (h'.silent hnone)
    · rcases hg' with hnone | hg'
      · exact .inl hnone
      · rw [h.session] at hg'
        exact .inr (hg.trans hg')

/-- To a `Turn`, nothing but session, client and stage matters. -/
theorem idle (hs : out.1.session = s.session) (hm : out.1.markup = s.markup)
    (hst : out.1.stage = .uninitialized → s.stage = .uninitialized) (hq : Action.written out.2 = []) :
    Turn s out := by
  refine ⟨hs, hq, fun h => hm.trans h, fun past h => ⟨⟨hs ▸ h.wf, fun h' => ?_, ?_, ?_⟩, .inr ?_⟩⟩
  · rw [hm]; exact h.start (hst h')
  · rw [hm]; exact h.told
  · rw [hm, hs]; exact h.held
  · rw [queue, queue, hm]
    exact .refl

theorem refl (s : Server) : Turn s (s, []) :=
  idle rfl rfl id rfl

/-- The client does something that the session allows. -/
theorem client {c c' : Client} (hs : out.1.session = s.session) (hc : s.markup = some c)
    (hc' : out.1.markup = some c') (hst : out.1.stage = .uninitialized → s.stage = .uninitialized)
    (hq : Action.written out.2 = [])
    (hsends : ∀ past, s.session.WF → c.Told past → Client.Sends s.session past c c')
    (hheld : ∀ d ∈ c'.documents, d ∈ c.documents ∨ s.session.Has d.uri) : Turn s out := by
  refine ⟨hs, hq, fun h => (by rw [hc] at h; cases h), fun past h => ?_⟩
  have hgo := hsends past h.wf (h.told c hc)
  refine ⟨⟨hs ▸ h.wf, fun h' => ?_, fun x hx => ?_, fun x hx d hd => ?_⟩, .inr ?_⟩
  · have := (h.start (hst h')).1
    rw [hc] at this
    cases this
  · rw [hc'] at hx
    cases hx
    exact hgo.told
  · rw [hc'] at hx
    cases hx
    rw [hs]
    rcases hheld d hd with hd | hd
    · exact h.held c hc d hd
    · exact hd
  · rw [queue, queue, hc, hc']
    exact hgo.grows

/-- A turn goes on from whatever agrees with its start in session, client and stage. -/
theorem after (h : Turn s₁ out) (hs : s₁.session = s.session) (hm : s₁.markup = s.markup)
    (hst : s₁.stage = .uninitialized → s.stage = .uninitialized) : Turn s out := by
  have hfirst : Turn s (s₁, []) := idle hs hm hst rfl
  exact hfirst.trans h

/-- And it may end in whatever agrees with its end. -/
theorem before (h : Turn s out) (hs : out'.1.session = out.1.session) (hm : out'.1.markup = out.1.markup)
    (hst : out'.1.stage = out.1.stage) (hq : Action.written out'.2 = []) : Turn s out' := by
  have hfirst : Turn s (out.1, out.2) := h
  have hlast : Turn out.1 (out'.1, []) := idle hs hm (fun h' => hst ▸ h') rfl
  have := hfirst.trans hlast
  exact ⟨this.session, hq, this.silent, this.follows⟩

end Turn

/-! ## Questions and insertions -/

variable {s : Server}

/-- `consult` brings the markup server up to date first. -/
theorem turn_consult {uri : Url} {p : Position} {i : Inquiry} (hi : s.session.inquire? uri p = some i) (q : Query) :
    Turn s ((s.consult i q).1, (s.consult i q).2.1) := by
  unfold consult
  split
  · exact Turn.refl s
  · rename_i c hc
    have hhas := Session.has_target hi
    -- the query is allowed by what is noted after the document was brought up to date
    have hsends : ∀ past, s.session.WF → c.Told past →
        Client.Sends s.session past c ((c.sync i.target).1.ask i.target q i.position).1 := by
      intro past hwf hc
      have hv := hwf.has_virtual hhas
      have hsync := hc.sync (s := s.session) hv
      refine hsync.trans (hsync.told.request fun id => .inr (.inr ⟨uri, p, i, hi, q, rfl, rfl, ?_⟩))
      exact Client.view_sync hc.virtual hv
    have hheld : ∀ d ∈ ((c.sync i.target).1.ask i.target q i.position).1.documents,
        d ∈ c.documents ∨ s.session.Has d.uri := by
      intro d hd
      rw [Client.ask, Client.request_documents] at hd
      rcases Client.mem_documents_sync hd with hd | hd
      · exact .inl hd
      · exact .inr (hd ▸ hhas)
    dsimp only
    split
    · rename_i c' n hask
      rw [hask] at hsends hheld
      refine Turn.client rfl hc rfl id ?_ hsends hheld
      rw [Action.written_ofEffects, Client.sync_written]
    · rename_i c' e hask
      rw [hask] at hsends hheld
      refine Turn.client rfl hc rfl id ?_ hsends hheld
      rw [Action.written_ofEffects, Effect.written_append, Client.sync_written, Query.conclude_written]
      rfl

theorem turn_ask (request : RequestId) (question : Question) : Turn s (s.ask request question) := by
  unfold ask
  dsimp only
  split
  · exact Turn.idle rfl rfl id rfl
  · rename_i i hi
    have h := turn_consult hi question.query
    split
    · rename_i s' actions id hc
      rw [hc] at h
      exact h.before rfl rfl rfl h.quiet
    · rename_i s' actions hc
      rw [hc] at h
      refine h.before rfl rfl rfl ?_
      rw [Action.written_append, h.quiet]; rfl

theorem turn_startInsertion (task : Task InsertionJob) : Turn s (s.startInsertion task) := by
  unfold startInsertion
  dsimp only
  split
  · exact Turn.idle rfl rfl id rfl
  · split
    · exact Turn.idle rfl rfl id rfl
    · rename_i i hi
      unfold AutoInsert.inquire? at hi
      split at hi
      · have h := turn_consult hi (.autoInsert task.job.trigger.kind)
        split
        · rename_i s' actions id hc
          rw [hc] at h
          exact h.before rfl rfl rfl h.quiet
        · rename_i s' actions hc
          rw [hc] at h
          exact h.before rfl rfl rfl h.quiet
      · cases hi

theorem turn_startDue (now count : Nat) : Turn s (startDue now count s) := by
  induction count generalizing s with
  | zero => exact Turn.refl s
  | succ count ih =>
    unfold startDue
    split
    · exact Turn.refl s
    · rename_i task _
      exact (turn_startInsertion task).trans ih

theorem turn_tick (now : Nat) : Turn s (s.tick now) :=
  (turn_startDue now _).after rfl rfl id

theorem turn_concludeAnswer (request : RequestId) (i : Inquiry) (q : Query) (response : Response) :
    Turn s (s.concludeAnswer request i q response) := by
  refine Turn.idle rfl rfl id ?_
  unfold concludeAnswer
  dsimp only
  rw [Action.written_append, Action.written_ofEffects, Query.conclude_written]; rfl

theorem turn_concludeInsertion (task : Task InsertionJob) (i : Inquiry) (response : Response) :
    Turn s (s.concludeInsertion task i response) := by
  unfold concludeInsertion
  dsimp only
  split
  · have hq := Query.conclude_written (.autoInsert task.job.trigger.kind) response
    split
    · refine Turn.idle rfl rfl id ?_
      rw [Action.written_ofEffects, hq]
    · refine Turn.idle rfl rfl id ?_
      rw [Action.written_append, Action.written_ofEffects, hq]; rfl
  · exact Turn.refl s

/-! ## Starting and stopping -/

theorem turn_readyWithout (request : RequestId) (e : MarkupError) : Turn s (s.readyWithout request e) := by
  refine ⟨rfl, rfl, fun _ => rfl, fun past h => ⟨⟨h.wf, ?_, ?_, ?_⟩, .inl rfl⟩⟩
  · intro h'; cases h'
  · intro c hc; cases hc
  · intro c hc; cases hc

/-- `concludeInitialize` tells the markup server at most that its answer was heard. -/
theorem concludeInitialize_eq {c : Client} {response : Response} {out : Client × List Effect}
    (h : c.concludeInitialize response = .ok out) : out = c.notify "initialized" (.obj []) := by
  unfold Client.concludeInitialize at h
  cases response with
  | error e => cases h
  | ok result =>
    dsimp only [bind, Except.bind] at h
    split at h
    · cases h
    · cases h; rfl

theorem turn_concludeHandshake (request : RequestId) (response : Response) :
    Turn s (s.concludeHandshake request response) := by
  unfold concludeHandshake
  split
  · exact Turn.refl s
  · rename_i c hc
    split
    · exact turn_readyWithout ..
    · rename_i c' effects h
      have h := concludeInitialize_eq h
      refine Turn.client rfl hc rfl (fun h' => (by cases h')) ?_ (fun past _ hc => ?_) fun d hd => .inl ?_
      · rw [Action.written_append, Action.written_ofEffects, show effects = _ from congrArg Prod.snd h,
          Client.notify_written]
        rfl
      · rw [show c' = _ from congrArg Prod.fst h]
        exact hc.notify hc.virtual rfl rfl rfl
      · rwa [show c' = _ from congrArg Prod.fst h, Client.notify_documents] at hd

/-- `concludeShutdown` sends nothing about documents. -/
theorem sends_concludeShutdown {c : Client} {past : List Outgoing} (h : c.Told past) (response : Response) :
    Client.Sends s.session past c (c.concludeShutdown response).1 :=
  h.notify h.virtual rfl rfl rfl

theorem turn_shutdown (request : RequestId) : Turn s (s.shutdown request) := by
  unfold shutdown
  split
  · exact Turn.idle rfl rfl id rfl
  · rename_i c hc
    have hrequest : ∀ past, c.Told past → Client.Sends s.session past c c.requestShutdown.1 :=
      fun past h => h.request fun _ => .inr (.inl rfl)
    have hdocuments : c.requestShutdown.1.documents = c.documents := Client.request_documents ..
    split
    · rename_i c' n hshut
      rw [hshut] at hrequest hdocuments
      exact Turn.client rfl hc rfl id rfl (fun past _ h => hrequest past h)
        fun d hd => .inl (hdocuments ▸ hd)
    · rename_i c' e hshut
      rw [hshut] at hrequest hdocuments
      refine Turn.client rfl hc rfl id ?_
        (fun past _ h => (hrequest past h).trans (sends_concludeShutdown (hrequest past h).told _)) fun d hd => .inl ?_
      · dsimp only
        rw [Action.written_append, Action.written_ofEffects, Client.concludeShutdown_written]; rfl
      · rw [← hdocuments]
        exact (Client.notify_documents c' ..) ▸ hd

theorem turn_concludeShutdown (request : RequestId) (response : Response) :
    Turn s (s.concludeShutdown request response) := by
  unfold concludeShutdown onClient
  cases hc : s.markup with
  | none => exact Turn.idle rfl rfl id rfl
  | some c =>
    refine Turn.client rfl hc rfl id ?_ (fun past _ h => sends_concludeShutdown h response) fun d hd => .inl ?_
    · dsimp only
      rw [Action.written_append, Action.written_ofEffects, Client.concludeShutdown_written]; rfl
    · exact (Client.notify_documents c ..) ▸ hd

/-! ## Responses of the markup server -/

theorem turn_resume (n : Nat) (response : Response) : Turn s (s.resume n response) := by
  unfold resume
  split
  · exact Turn.refl s
  · rename_i next _
    cases next with
    | handshake request => exact (turn_concludeHandshake request response).after rfl rfl id
    | answer request i q => exact (turn_concludeAnswer request i q response).after rfl rfl id
    | insertion task i => exact (turn_concludeInsertion task i response).after rfl rfl id
    | shutdown request => exact (turn_concludeShutdown request response).after rfl rfl id

theorem turn_absorb {effects : List Effect} (h : Effect.written effects = []) : Turn s (s.absorb effects) := by
  induction effects generalizing s with
  | nil => exact Turn.refl s
  | cons e effects ih =>
    cases e with
    | write m => cases h
    | settle n response => exact (turn_resume n response).trans (ih h)
    | log line =>
      have hlog : Turn s (s, [.log line]) := Turn.idle rfl rfl id rfl
      exact hlog.trans (ih h)

/-- A `markupStep` in which nothing is written. -/
theorem turn_markupStep {f : Client → Client × List Effect} (hq : ∀ c, Effect.written (f c).2 = [])
    (hsends : ∀ c past, c.Told past → Client.Sends s.session past c (f c).1)
    (hdocuments : ∀ c, (f c).1.documents = c.documents) : Turn s (s.markupStep f) := by
  unfold markupStep
  cases hc : s.markup with
  | none => exact Turn.refl s
  | some c =>
    have hstep : Turn s ({ s with markup := some (f c).1 }, []) :=
      Turn.client rfl hc rfl id rfl (fun past _ h => hsends c past h) fun d hd => .inl (hdocuments c ▸ hd)
    exact hstep.trans (turn_absorb (hq c))

/-! ## Messages of the editor -/

theorem turn_withParams {α : Type} (request : RequestId) (read : Json → Option α) (params : Option Json)
    {use : α → Server × List Action} (h : ∀ a, Turn s (use a)) : Turn s (s.withParams request read params use) := by
  unfold withParams
  split
  · exact Turn.idle rfl rfl id rfl
  · exact h _

theorem turn_serve? {request : RequestId} {method : String} {params : Option Json} {out : Server × List Action}
    (h : s.serve? request method params = some out) : Turn s out := by
  unfold serve? at h
  split at h
  · cases h
    exact turn_withParams _ _ _ fun _ => Turn.idle rfl rfl id rfl
  · split at h
    · cases h
      exact Turn.refl s
    · split at h
      · cases h
        exact turn_withParams _ _ _ (turn_ask request)
      · cases h
        exact turn_withParams _ _ _ fun _ => Turn.idle rfl rfl id rfl
      · cases h

/-- `meet` starts the markup server, which has been sent nothing so far. -/
theorem keeps_meet {past : List Outgoing} (h : s.Follows past) (hst : s.stage = .uninitialized) (w : Surroundings)
    (request : RequestId) (place : Workplace) : Keeps s past (s.meet w request place) := by
  -- nothing was sent before, so the stream begins with the request to start
  obtain ⟨hnone, rfl⟩ := h.start hst
  unfold meet
  dsimp only
  split
  · refine Turn.keeps ?_ h
    exact (turn_readyWithout request _).after rfl rfl id
  · have hfresh : ({} : Client).Told [] := ⟨fun d hd => (by cases hd), fun _ => rfl⟩
    have hsends : Client.Sends s.session [] {} (({} : Client).request "initialize"
        (Handshake.params w.processId (rootOf place))).1 := hfresh.request fun _ => .inl rfl
    have hdocuments := Client.request_documents {} "initialize" (Handshake.params w.processId (rootOf place))
    split
    · refine Turn.keeps ?_ h
      exact (turn_readyWithout request _).after rfl rfl id
    · rename_i c n hrequest
      rw [show ({} : Client).request _ _ = (c, .ok n) from hrequest] at hsends hdocuments
      refine ⟨⟨h.wf, fun h' => (by cases h'), fun x hx => ?_, fun x hx d hd => ?_⟩, .inr ?_⟩
      · cases hx
        exact hsends.told
      · cases hx
        rw [hdocuments] at hd
        cases hd
      · rw [queue, hnone]
        exact hsends.grows

theorem keeps_request {past : List Outgoing} (h : s.Follows past) (w : Surroundings) (request : RequestId)
    (method : String) (params : Option Json) : Keeps s past (s.request w request method params) := by
  -- all but meeting the editor is a turn
  have hidle : ∀ {out : Server × List Action}, out.1.session = s.session → out.1.markup = s.markup →
      (out.1.stage = .uninitialized → s.stage = .uninitialized) → Action.written out.2 = [] → Keeps s past out :=
    fun h1 h2 h3 h4 => (Turn.idle h1 h2 h3 h4).keeps h
  unfold Server.request
  dsimp only
  split
  · split
    · rename_i hst
      unfold withParams
      split
      · exact hidle rfl rfl id rfl
      · exact keeps_meet h hst ..
    · exact hidle rfl rfl id rfl
  · split
    · exact hidle rfl rfl id rfl
    · split
      · refine Turn.keeps ?_ h
        exact (turn_shutdown request).after rfl rfl fun h' => (by cases h')
      · exact hidle rfl rfl (fun h' => (by cases h')) rfl
  · exact hidle rfl rfl (fun h' => (by cases h')) rfl
  · split
    · split <;> exact hidle rfl rfl id rfl
    · rename_i out hout
      split
      · exact hidle rfl rfl id rfl
      · exact (turn_serve? hout).keeps h

/-! ## Documents -/

theorem Keeps.congr {past : List Outgoing} {out : Server × List Action} {s' : Server} (h : Keeps s past out)
    (hs : s'.session = out.1.session) (hm : s'.markup = out.1.markup) (hst : s'.stage = out.1.stage) :
    Keeps s past (s', out.2) := by
  refine ⟨⟨hs ▸ h.follows.wf, fun h' => ?_, ?_, ?_⟩, ?_⟩
  · rw [hm]; exact h.follows.start (hst ▸ h')
  · rw [hm]; exact h.follows.told
  · rw [hm, hs]; exact h.follows.held
  · have := h.grows
    rwa [sent, queue, ← hm] at this

/-- The session changes first, and then what vanished is closed: what is left is still there. -/
theorem keeps_closeVanished {past : List Outgoing} (h : s.Follows past) {s₁ : Server} (hwf : s₁.session.WF)
    (hm : s₁.markup = s.markup) (hst : s₁.stage = s.stage) {previous current : Option HostDocument}
    (hkeep : ∀ u, s.session.Has u → (∀ d, previous = some d → u ∉ d.vanished current) → s₁.session.Has u) :
    Keeps s past (s₁.closeVanished previous current) := by
  have hstart : ∀ {m : Option Client}, (s.markup = none → m = none) → s₁.stage = .uninitialized →
      m = none ∧ past = [] := fun hm h' => ⟨hm (h.start (hst ▸ h')).1, (h.start (hst ▸ h')).2⟩
  -- without a client, or without an earlier version, nothing is closed
  have hsame : (∀ c, s.markup = some c → previous = none) → Keeps s past (s₁, []) := by
    intro hnone
    refine ⟨⟨hwf, ?_, ?_, fun c hc d hd => ?_⟩, .inr ?_⟩
    · rw [show past ++ Action.written [] = past from List.append_nil _]
      exact hstart fun h' => hm.trans h'
    · rw [show past ++ Action.written [] = past from List.append_nil _, hm]
      exact h.told
    · have hc : s.markup = some c := hm ▸ hc
      refine hkeep _ (h.held c hc d hd) fun x hx => ?_
      rw [hnone c hc] at hx
      cases hx
    · rw [sent, queue, queue, hm]
      exact .refl
  unfold closeVanished
  cases previous with
  | none => exact hsame fun _ _ => rfl
  | some d =>
    unfold onClient
    cases hc : s₁.markup with
    | none =>
      refine hsame fun c hc' => ?_
      rw [← hm, hc] at hc'
      cases hc'
    | some c =>
      have hc' : s.markup = some c := hm ▸ hc
      have hsends := (h.told c hc').closeAll (s := s.session) (d.vanished current)
      have hquiet : Action.written (Action.ofEffects (c.closeAll (d.vanished current)).2) = [] := by
        rw [Action.written_ofEffects, Client.closeAll_written]
      refine ⟨⟨hwf, ?_, fun x hx => ?_, fun x hx y hy => ?_⟩, .inr ?_⟩
      · dsimp only
        rw [hquiet, List.append_nil]
        exact hstart fun h' => by rw [hc'] at h'; cases h'
      · cases hx
        dsimp only
        rw [hquiet, List.append_nil]
        exact hsends.told
      · cases hx
        obtain ⟨hy, hnot⟩ := Client.mem_documents_closeAll hy
        exact hkeep _ (h.held c hc' y hy) fun x hx => (by cases hx; exact hnot)
      · rw [sent, hquiet, queue, hc']
        exact hsends.grows

theorem keeps_opened {past : List Outgoing} (h : s.Follows past) (d : OpenedDocument) : Keeps s past (s.opened d) := by
  unfold opened
  split
  · refine keeps_closeVanished h ?_ ?_ ?_ fun u hu hv => ?_
    · exact h.wf.put ..
    · rfl
    · rfl
    · exact (hu.erase hv).put_of_erase ..
  · exact (Turn.refl s).keeps h

theorem keeps_changed {past : List Outgoing} (h : s.Follows past) (d : ChangedDocument) :
    Keeps s past (s.changed d) := by
  cases hg : s.session.get? d.uri with
  | none =>
    rw [changed_of_none hg]
    exact (Turn.idle rfl rfl id rfl : Turn s (s.unschedule d.uri, [])).keeps h
  | some host =>
    rw [changed_of_some hg]
    dsimp only
    have hclosed : Keeps s past ({ s.unschedule d.uri with
        session := (s.session.put d.uri (Change.applyAll host.text d.changes) d.version).1 }.closeVanished (some host)
          (some (s.session.put d.uri (Change.applyAll host.text d.changes) d.version).2.1)) := by
      refine keeps_closeVanished h ?_ ?_ ?_ fun u hu hv => ?_
      · exact h.wf.put ..
      · rfl
      · rfl
      · refine hu.put _ _ fun x hx => hv x ?_
        rw [← hg, hx]
    refine hclosed.congr ?_ ?_ ?_ <;> rw [schedule_eq]

theorem keeps_closed {past : List Outgoing} (h : s.Follows past) (uri : Url) : Keeps s past (s.closed uri) := by
  unfold closed
  refine keeps_closeVanished h ?_ ?_ ?_ fun u hu hv => ?_
  · exact h.wf.erase uri
  · rfl
  · rfl
  · exact hu.erase hv

theorem keeps_notification {past : List Outgoing} (h : s.Follows past) (method : String) (params : Option Json) :
    Keeps s past (s.notification method params) := by
  have hrefl : Keeps s past (s, []) := (Turn.refl s).keeps h
  have hgetD : ∀ {α : Type} (o : Option α) (f : α → Server × List Action), (∀ a, Keeps s past (f a)) →
      Keeps s past ((o.map f).getD (s, [])) := by
    intro α o f hf
    cases o with
    | none => exact hrefl
    | some a => exact hf a
  unfold notification
  split
  · exact (Turn.idle rfl rfl (fun h' => (by cases h')) rfl : Turn s ({ s with stage := .exited }, [])).keeps h
  · split
    · exact (Turn.idle rfl rfl (fun h' => (by cases h')) rfl : Turn s ({ s with stage := .shutDown }, [])).keeps h
    · exact hrefl
  · split
    · unfold notice
      split
      · split
        · exact (Turn.idle rfl rfl id rfl : Turn s (s, [.display _])).keeps h
        · exact hrefl
      · exact hgetD _ _ fun d => keeps_opened h d
      · exact hgetD _ _ fun d => keeps_changed h d
      · exact hgetD _ _ fun uri => keeps_closed h uri
      · exact hrefl
    · exact hrefl

end Server

end EmbeddedMarkup
