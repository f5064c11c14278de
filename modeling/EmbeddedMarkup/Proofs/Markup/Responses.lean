/-
Responses reach the requests that they answer. Requests are `Numbered` in the order in which they are made;
what a caller gets is the `firstVerdict?` on its request, or `stopped`; messages without a verdict on a
pending request change no outcome; and every request of the server is answered once.
-/
import EmbeddedMarkup.Proofs.Markup.Requests

namespace EmbeddedMarkup.Exchange

/-! ## What was sent -/

/-- All messages that were given to the writer and not lost. -/
def sent (x : Exchange) : List Outgoing :=
  x.written ++ x.client.queue

/-- The requests among messages: their ids, methods and parameters. -/
def requestsOf (messages : List Outgoing) : List (Nat × String × Json) :=
  messages.filterMap fun
    | .request id method params => some (id, method, params)
    | _ => none

def answersOf (messages : List Outgoing) : List Outgoing :=
  messages.filterMap fun
    | .answer id result => some (.answer id result)
    | _ => none

theorem requestsOf_append (a b : List Outgoing) : requestsOf (a ++ b) = requestsOf a ++ requestsOf b :=
  List.filterMap_append

theorem answersOf_append (a b : List Outgoing) : answersOf (a ++ b) = answersOf a ++ answersOf b :=
  List.filterMap_append

@[simp] theorem setStage_sent (x : Exchange) (id : Nat) (s : Stage) : (x.setStage id s).sent = x.sent := rfl

@[simp] theorem conclude_sent (x : Exchange) (id : Nat) (r : Response) : (x.conclude id r).sent = x.sent := rfl

@[simp] theorem withdraw_sent (x : Exchange) (id : Nat) : (x.withdraw id).sent = x.sent := rfl

@[simp] theorem post_sent (x : Exchange) (m : Outgoing) : (x.post m).sent = x.sent ++ [m] :=
  (List.append_assoc ..).symm

@[simp] theorem give_sent (x : Exchange) (id : Nat) (r : Response) : (x.give id r).sent = x.sent := by
  unfold give
  split <;> rfl

theorem exists_of_answer? {message : Json} {m : Outgoing} (h : answer? message = some m) :
    ∃ id result, m = .answer id result := by
  unfold answer? at h
  split at h
  · cases h
    exact ⟨_, _, rfl⟩
  · cases h

/-! ## Numbers of requests -/

/-- The invariant of an exchange in which `requests` were made so far: they are numbered in their order, and
each is sent at most once, under its number. -/
structure Numbered (requests : List (String × Json)) (x : Exchange) : Prop where
  next : x.client.nextId = requests.length + 1
  drafts : ∀ id content, (x.stage id).content? = some content → 0 < id ∧ requests[id - 1]? = some content
  posts : ∀ p ∈ requestsOf x.sent, 0 < p.1 ∧ requests[p.1 - 1]? = some p.2 ∧ (x.stage p.1).content? = none
  distinct : ((requestsOf x.sent).map Prod.fst).Nodup

namespace Numbered

variable {requests : List (String × Json)} {x y : Exchange} {id : Nat}

/-- `Numbered` stays if no request is made and none is sent. -/
theorem congr (h : Numbered requests x) (hnext : y.client.nextId = x.client.nextId)
    (hdrafts : ∀ i content, (y.stage i).content? = some content → (x.stage i).content? = some content)
    (hposts : (requestsOf y.sent).Sublist (requestsOf x.sent)) : Numbered requests y := by
  refine ⟨hnext.trans h.next, fun i content hc => h.drafts i content (hdrafts i content hc), fun p hp => ?_,
    h.distinct.sublist (hposts.map _)⟩
  obtain ⟨hpos, hget, hnone⟩ := h.posts p (hposts.subset hp)
  refine ⟨hpos, hget, Option.eq_none_iff_forall_ne_some.2 fun content hc => ?_⟩
  rw [hdrafts p.1 content hc] at hnone
  cases hnone

theorem content?_update {s : Stage} (hs : ∀ content, s.content? = some content → (x.stage id).content? = some content) :
    ∀ i content, (Function.update x.stage id s i).content? = some content → (x.stage i).content? = some content := by
  intro i content hc
  by_cases hi : i = id
  · subst hi
    rw [Function.update_self] at hc
    exact hs content hc
  · rwa [Function.update_of_ne hi] at hc

theorem content?_give (x : Exchange) (id : Nat) (r : Response) :
    ∀ i content, ((x.give id r).stage i).content? = some content → (x.stage i).content? = some content := by
  unfold give
  split
  · rename_i hs
    exact content?_update fun content hc => by rw [hs]; exact hc
  · rename_i hs
    exact content?_update fun content hc => by rw [hs]; exact hc
  · exact content?_update fun content hc => by cases hc
  · exact fun _ _ hc => hc

theorem register (h : Numbered requests x) (method : String) (params : Json) :
    Numbered (requests ++ [(method, params)])
      ({ x with client := x.client.register.1 }.setStage x.client.nextId (.registered { method, params })) := by
  have hlt : ∀ {n : Nat} {content : String × Json}, requests[n]? = some content → n < requests.length := by
    intro n content hn
    exact (List.getElem?_eq_some_iff.1 hn).1
  refine ⟨?_, fun i content hc => ?_, fun p hp => ?_, h.distinct⟩
  · show x.client.nextId + 1 = _
    rw [h.next, List.length_append, List.length_singleton]
  · rw [setStage_stage] at hc
    by_cases hi : i = x.client.nextId
    · subst hi
      rw [Function.update_self] at hc
      cases hc
      rw [h.next]
      exact ⟨Nat.succ_pos _, by simp⟩
    · rw [Function.update_of_ne hi] at hc
      obtain ⟨hpos, hget⟩ := h.drafts i content hc
      exact ⟨hpos, by rw [List.getElem?_append_left (hlt hget)]; exact hget⟩
  · -- a request that was sent has a smaller number
    obtain ⟨hpos, hget, hnone⟩ := h.posts p hp
    have hp := hlt hget
    refine ⟨hpos, by rw [List.getElem?_append_left hp]; exact hget, ?_⟩
    rw [setStage_stage, Function.update_of_ne (by rw [h.next]; omega)]
    exact hnone

theorem post (h : Numbered requests x) {method : String} {params : Json}
    (hd : (x.stage id).content? = some (method, params)) (hstage : (y.stage id).content? = none)
    (hothers : ∀ i, i ≠ id → y.stage i = x.stage i) (hnext : y.client.nextId = x.client.nextId)
    (hsent : y.sent = x.sent ++ [.request id method params]) : Numbered requests y := by
  have hposts : requestsOf y.sent = requestsOf x.sent ++ [(id, method, params)] := by
    rw [hsent, requestsOf_append]; rfl
  have hnew : ∀ p ∈ requestsOf x.sent, p.1 ≠ id := by
    rintro p hp rfl
    have := (h.posts p hp).2.2
    rw [hd] at this
    cases this
  refine ⟨hnext.trans h.next, fun i content hc => ?_, fun p hp => ?_, ?_⟩
  · by_cases hi : i = id
    · subst hi
      rw [hstage] at hc
      cases hc
    · rw [hothers i hi] at hc
      exact h.drafts i content hc
  · rw [hposts, List.mem_append, List.mem_singleton] at hp
    rcases hp with hp | rfl
    · rw [hothers p.1 (hnew p hp)]
      exact h.posts p hp
    · obtain ⟨hpos, hget⟩ := h.drafts id _ hd
      exact ⟨hpos, hget, hstage⟩
  · rw [hposts, List.map_append, List.nodup_append]
    refine ⟨h.distinct, by simp, ?_⟩
    rintro a ha b hb rfl
    obtain ⟨p, hp, rfl⟩ := List.mem_map.1 ha
    simp only [List.map_cons, List.map_nil, List.mem_singleton] at hb
    exact hnew p hp hb

theorem step {mv : Move} (h : Numbered requests x) (hstep : Step x mv y) :
    Numbered (requests ++ mv.request?.toList) y := by
  have hnone : mv.request? = none → Numbered requests y → Numbered (requests ++ mv.request?.toList) y := by
    intro hmv hy
    rwa [hmv, Option.toList_none, List.append_nil]
  cases hstep with
  | idle hrequest hverdict hanswer => exact hnone hrequest h
  | register method params => exact h.register method params
  | check hs =>
    exact hnone rfl (h.congr rfl (content?_update fun content hc => by rw [hs]; exact hc) (.refl _))
  | send hs hmute hreply =>
    have hd := congrArg Stage.content? hs
    refine hnone rfl (h.post hd ?_ (fun i hi => Function.update_of_ne hi _ _) rfl (post_sent x _))
    rw [setStage_stage, Function.update_self]; rfl
  | sendReplied hs hmute hreply =>
    have hd := congrArg Stage.content? hs
    refine hnone rfl (h.post hd ?_ (fun i hi => Function.update_of_ne hi _ _) rfl (post_sent x _))
    rw [conclude_stage, Function.update_self]; rfl
  | fail hs hstopped => exact hnone rfl (h.congr rfl (content?_update fun _ hc => by cases hc) (.refl _))
  | abandon hs => exact hnone rfl (h.congr rfl (content?_update fun _ hc => by cases hc) (.refl _))
  | notify hmute =>
    refine hnone rfl (h.congr rfl (fun _ _ hc => hc) ?_)
    rw [post_sent, requestsOf_append]
    show (requestsOf x.sent ++ []).Sublist _
    rw [List.append_nil]
  | settle hreading hpending hverdict =>
    refine hnone rfl (h.congr (by rw [give_client]; rfl) (content?_give _ _ _) ?_)
    rw [give_sent, withdraw_sent]
  | answer hreading hmute hverdict hanswer =>
    obtain ⟨id, result, rfl⟩ := exists_of_answer? hanswer
    refine hnone rfl (h.congr rfl (fun _ _ hc => hc) ?_)
    rw [post_sent, requestsOf_append]
    show (requestsOf x.sent ++ []).Sublist _
    rw [List.append_nil]
  | markEnd hreading => exact hnone rfl (h.congr rfl (fun _ _ hc => hc) (.refl _))
  | collect hended => exact hnone rfl (h.congr rfl (fun _ _ hc => hc) (.refl _))
  | stop hstopping hpending =>
    refine hnone rfl (h.congr ?_ (content?_give _ _ _) ?_)
    · show ((x.withdraw _).give _ _).client.nextId = _
      rw [give_client]; rfl
    · show (requestsOf ((x.withdraw _).give _ _).sent).Sublist _
      rw [give_sent, withdraw_sent]
  | skip hstopping hpending => exact hnone rfl (h.congr rfl (fun _ _ hc => hc) (.refl _))
  | write hqueue =>
    refine hnone rfl (h.congr rfl (fun _ _ hc => hc) ?_)
    unfold sent
    simp only [hqueue, List.append_assoc, List.singleton_append]
    exact .refl _
  | breakDown hqueue =>
    refine hnone rfl (h.congr rfl (fun _ _ hc => hc) ?_)
    unfold sent
    rw [List.append_nil, requestsOf_append]
    exact List.sublist_append_left ..

end Numbered

theorem numbered_run (moves : List Move) :
    Numbered (moves.filterMap Move.request?) (({} : Exchange).run moves) := by
  induction moves using List.reverseRecOn with
  | nil => exact ⟨rfl, fun _ _ hc => (by cases hc), fun _ hp => (by cases hp), List.nodup_nil⟩
  | append_singleton moves mv ih =>
    have := ih.step (step_spec _ mv)
    rw [run_append, List.filterMap_append]
    cases hmv : mv.request? <;> simpa [hmv] using this

/-! ## Answers to the server -/

def heardIn (x : Exchange) : List Move → List Json
  | [] => []
  | mv :: moves => (x.hears? mv).toList ++ (x.step mv).heardIn moves

theorem heardIn_snoc (x : Exchange) (moves : List Move) (mv : Move) :
    x.heardIn (moves ++ [mv]) = x.heardIn moves ++ ((x.run moves).hears? mv).toList := by
  induction moves generalizing x with
  | nil => simp [heardIn]
  | cons first moves ih => simp only [List.cons_append, heardIn, ih, run_cons, List.append_assoc]

theorem answer?_of_verdict? {message : Json} {id : Nat} {r : Response} (h : verdict? id message = some r) :
    answer? message = none := by
  cases hanswer : answer? message with
  | none => rfl
  | some m =>
    rw [verdict?_of_answer? hanswer] at h
    cases h

/-- Unless the client `isMute`, each request of the server that is read is answered at once. -/
theorem answers_step {x y : Exchange} {mv : Move} (hstep : Step x mv y) (hy : y.client.isMute = false) :
    x.client.isMute = false ∧ answersOf y.sent = answersOf x.sent ++ ((x.hears? mv).toList.filterMap answer?) := by
  have hquiet : x.hears? mv = none → answersOf y.sent = answersOf x.sent →
      answersOf y.sent = answersOf x.sent ++ ((x.hears? mv).toList.filterMap answer?) := by
    intro hmv hsent
    rw [hmv, hsent, Option.toList_none, List.filterMap_nil, List.append_nil]
  cases hstep with
  | idle hrequest hverdict hanswer =>
    refine ⟨hy, ?_⟩
    have := hanswer hy
    cases hm : x.hears? mv with
    | none => simp
    | some message => rw [hm] at this; simpa using this
  | register method params => exact ⟨hy, hquiet rfl rfl⟩
  | check hs => exact ⟨hy, hquiet rfl rfl⟩
  | send hs hmute hreply =>
    refine ⟨hy, hquiet rfl ?_⟩
    rw [setStage_sent, post_sent, answersOf_append]
    exact List.append_nil _
  | sendReplied hs hmute hreply =>
    refine ⟨hy, hquiet rfl ?_⟩
    rw [conclude_sent, post_sent, answersOf_append]
    exact List.append_nil _
  | fail hs hstopped => exact ⟨hy, hquiet rfl rfl⟩
  | abandon hs => exact ⟨hy, hquiet rfl rfl⟩
  | notify hmute =>
    refine ⟨hy, hquiet rfl ?_⟩
    rw [post_sent, answersOf_append]
    exact List.append_nil _
  | settle hreading hpending hverdict =>
    rw [give_client] at hy
    refine ⟨hy, ?_⟩
    simp [hears?, hreading, answer?_of_verdict? hverdict]
  | answer hreading hmute hverdict hanswer =>
    obtain ⟨id, result, rfl⟩ := exists_of_answer? hanswer
    refine ⟨hy, ?_⟩
    rw [post_sent, answersOf_append]
    simp [hears?, hreading, hanswer, answersOf]
  | markEnd hreading => exact ⟨hy, hquiet rfl rfl⟩
  | collect hended => exact ⟨hy, hquiet rfl rfl⟩
  | stop hstopping hpending =>
    have hclient : ((x.withdraw _).give _ (.error .stopped)).client.isMute = false := hy
    rw [give_client] at hclient
    refine ⟨hclient, hquiet rfl ?_⟩
    show answersOf ((x.withdraw _).give _ _).sent = _
    rw [give_sent, withdraw_sent]
  | skip hstopping hpending => exact ⟨hy, hquiet rfl rfl⟩
  | write hqueue =>
    refine ⟨hy, hquiet rfl ?_⟩
    unfold sent
    simp only [hqueue, List.append_assoc, List.singleton_append]
  | breakDown hqueue => cases hy

theorem answers_run (moves : List Move) (h : (({} : Exchange).run moves).client.isMute = false) :
    answersOf (({} : Exchange).run moves).sent = (({} : Exchange).heardIn moves).filterMap answer? := by
  induction moves using List.reverseRecOn with
  | nil => rfl
  | append_singleton moves mv ih =>
    rw [run_append] at h ⊢
    obtain ⟨hmute, hanswers⟩ := answers_step (step_spec _ mv) h
    rw [heardIn_snoc, List.filterMap_append, ← ih hmute]
    exact hanswers

/-! ## Messages that answer no request -/

/-- An exchange without what is sent. -/
def quiet (x : Exchange) : Exchange :=
  { x with client := { x.client with queue := [] }, written := [] }

theorem quiet_give (x : Exchange) (id : Nat) (r : Response) : (x.give id r).quiet = (x.quiet.give id r).quiet := by
  have hquiet : x.quiet.stage id = x.stage id := rfl
  unfold give
  cases hs : x.stage id <;> simp only [hquiet, hs] <;> rfl

theorem quiet_settle (x : Exchange) (id : Nat) (r : Response) :
    (x.takeUp (x.client.settle id r)).quiet = (x.quiet.takeUp (x.quiet.client.settle id r)).quiet := by
  have hpending : x.quiet.client.pending = x.client.pending := rfl
  unfold Client.settle
  rw [hpending]
  split_ifs
  · exact quiet_give (x.withdraw id) id r
  · rfl

/-- What is sent matters to nothing else, `write false` apart. -/
theorem quiet_step (x : Exchange) {mv : Move} (h : mv ≠ .write false) :
    (x.step mv).quiet = (x.quiet.step mv).quiet := by
  have hstage : x.quiet.stage = x.stage := rfl
  have hreader : x.quiet.reader = x.reader := rfl
  cases mv with
  | register method params => rfl
  | check id => simp only [step, hstage]; cases hs : x.stage id <;> rfl
  | send id =>
    simp only [step, hstage]
    cases hs : x.stage id with
    | checked draft sawEnd =>
      have hmute : x.quiet.client.isMute = x.client.isMute := rfl
      dsimp only
      -- both can send the request, or neither can
      rcases send_cases x.client sawEnd id draft.method draft.params with ⟨rfl, hm, hsend⟩ | ⟨hstopped, hsend⟩
      · rcases send_cases x.quiet.client false id draft.method draft.params with ⟨-, -, hsend'⟩ | ⟨hstopped', -⟩
        · rw [hsend, hsend']
          cases draft.reply <;> rfl
        · simp [hmute, hm] at hstopped'
      · rcases send_cases x.quiet.client sawEnd id draft.method draft.params with ⟨rfl, hm', -⟩ | ⟨-, hsend'⟩
        · simp [← hmute, hm'] at hstopped
        · rw [hsend, hsend']; rfl
    | _ => rfl
  | abandon id => simp only [step, hstage]; cases hs : x.stage id <;> rfl
  | notify method params =>
    simp only [step, Client.notify, Client.enqueue?]
    cases hm : x.client.isMute
    all_goals
      have hm' : x.quiet.client.isMute = _ := hm
      rw [hm']
      rfl
  | receive message =>
    simp only [step, hreader]
    cases hr : x.reader with
    | reading =>
      dsimp only
      unfold Client.receive
      cases Incoming.ofJson message with
      | response id r =>
        dsimp only
        split_ifs
        · exact quiet_settle x id.toNat r
        · rfl
      | request id result =>
        simp only [Client.enqueue?]
        cases hm : x.client.isMute
        all_goals
          have hm' : x.quiet.client.isMute = _ := hm
          rw [hm']
          rfl
      | _ => rfl
    | _ => rfl
  | markEnd => simp only [step, hreader]; cases hr : x.reader <;> rfl
  | collect => simp only [step, hreader]; cases hr : x.reader <;> rfl
  | stopNext =>
    simp only [step, hreader]
    cases hr : x.reader with
    | stopping ids =>
      cases ids with
      | nil => rfl
      | cons id ids => exact congrArg (fun y => { y with reader := .stopping ids }) (quiet_settle x id _)
    | _ => rfl
  | write succeeds =>
    cases succeeds with
    | false => exact absurd rfl h
    | true =>
      simp only [step, Client.writeNext]
      cases hq : x.client.queue <;> rfl

theorem quiet_run (x : Exchange) {moves : List Move} (h : .write false ∉ moves) :
    (x.run moves).quiet = (x.quiet.run moves).quiet := by
  induction moves using List.reverseRecOn with
  | nil => rfl
  | append_singleton moves mv ih =>
    rw [List.mem_append, List.mem_singleton, not_or] at h
    have hx := quiet_step (x.run moves) (Ne.symm h.2)
    have hq := quiet_step (x.quiet.run moves) (Ne.symm h.2)
    rw [run_append, run_append]
    exact hx.trans (by rw [ih h.1]; exact hq.symm)

/-- A message with no `verdict?` on a pending request leaves all outcomes to be what they would be without it. -/
theorem outcomes_of_no_verdict {x : Exchange} {message : Json}
    (h : ∀ id ∈ x.client.pending, verdict? id message = none) {after : List Move} (hafter : .write false ∉ after) :
    (x.run (.receive message :: after)).outcomes = (x.run after).outcomes := by
  have hsame : (x.step (.receive message)).quiet = x.quiet := by
    have hstep := step_spec x (.receive message)
    generalize x.step (.receive message) = y at hstep
    cases hstep with
    | idle => rfl
    | settle hreading hpending hverdict =>
      rw [h _ hpending] at hverdict
      cases hverdict
    | answer => rfl
  have h₁ := quiet_run (x.step (.receive message)) hafter
  have h₂ := quiet_run x hafter
  rw [hsame, ← h₂] at h₁
  have houtcomes := congrArg Exchange.outcomes h₁
  exact houtcomes

/-! ## Outcomes -/

variable {heard : Nat → Option Response} {x : Exchange} {id : Nat} {message : Json} {r : Response}

theorem waits_of_request (x : Exchange) (hended : x.client.isEnded = false) (hmute : x.client.isMute = false)
    (method : String) (params : Json) :
    let y := x.run [.register method params, .check x.client.nextId, .send x.client.nextId]
    y.stage x.client.nextId = .waiting ∧ y.sent = x.sent ++ [.request x.client.nextId method params] := by
  intro y
  have hrequest : x.client.request method params =
      x.client.register.1.send x.client.isEnded x.client.nextId method params := rfl
  have hy := run_request x method params
  rw [hrequest] at hy
  rcases send_cases x.client.register.1 x.client.isEnded x.client.nextId method params with
    ⟨-, -, hsend⟩ | ⟨hstopped | hstopped, -⟩
  · rw [hsend] at hy
    rw [show y = _ from hy]
    exact ⟨Function.update_self .., (List.append_assoc ..).symm⟩
  · rw [hended] at hstopped
    cases hstopped
  · rw [show x.client.register.1.isMute = x.client.isMute from rfl, hmute] at hstopped
    cases hstopped

theorem step_receive (hreading : x.reader = .reading) (hpending : id ∈ x.client.pending)
    (hverdict : verdict? id message = some r) : x.step (.receive message) = (x.withdraw id).give id r := by
  have hstep := step_spec x (.receive message)
  generalize x.step (.receive message) = y at hstep ⊢
  cases hstep with
  | idle hrequest hnone hanswer =>
    have := hnone id hpending
    simp only [hears?, hreading, Option.bind_some, hverdict] at this
    cases this
  | @settle message i r' _ _ hverdict' =>
    have hi : id = i := by
      by_contra hne
      rw [verdict?_unique hverdict' hne] at hverdict
      cases hverdict
    subst hi
    rw [hverdict] at hverdict'
    cases hverdict'
    rfl
  | answer _ _ hnone _ =>
    rw [hnone id] at hverdict
    cases hverdict

/-- A `verdict?` on a request whose caller is `waiting` is its outcome. -/
theorem outcomes_of_verdict (h : Sound heard x) (hreading : x.reader = .reading) (hs : x.stage id = .waiting)
    (hverdict : verdict? id message = some r) :
    (x.step (.receive message)).outcomes = x.outcomes ++ [(id, r)] := by
  obtain ⟨-, -, hpending, -⟩ := h.known_of_stage hs
  rw [step_receive hreading hpending hverdict, give_of_waiting (x := x.withdraw id) hs]
  rfl

theorem outcome_of_reply {draft : Draft} (hs : x.stage id = .checked draft false) (hmute : x.client.isMute = false)
    (hreply : draft.reply = some r) : (id, r) ∈ (x.step (.send id)).outcomes := by
  rw [step_send_of_reply hs hmute hreply]
  exact List.mem_append_right _ (List.mem_singleton.2 rfl)

/-- A verdict may come before the request is sent. Then it is the outcome as soon as that is done. -/
theorem outcome_of_early_verdict (h : Sound heard x) (hreading : x.reader = .reading)
    (hmute : x.client.isMute = false) (hpending : id ∈ x.client.pending) (hs : x.stage id ≠ .abandoned)
    (hverdict : verdict? id message = some r) :
    (id, r) ∈ (x.run [.receive message, .check id, .send id]).outcomes := by
  have hended := h.isEnded_of_reading hreading
  rw [run_cons, step_receive hreading hpending hverdict]
  cases hstage : x.stage id with
  | unmade => exact absurd hpending (h.known_of_stage hstage).2.1
  | abandoned => exact absurd hstage hs
  | concluded => exact absurd hpending (h.known_of_stage hstage).2.1
  | registered draft =>
    rw [give_of_registered (x := x.withdraw id) hstage,
      run_last_of_registered (x := (x.withdraw id).setStage id _) (Function.update_self ..)]
    exact outcome_of_reply ((Function.update_self ..).trans (congrArg _ hended)) hmute rfl
  | checked draft sawEnd =>
    obtain ⟨-, -, -, hsaw⟩ := h.known_of_stage hstage
    cases sawEnd with
    | true => exact absurd hsaw (by simp [hended])
    | false =>
      rw [give_of_checked (x := x.withdraw id) hstage,
        run_last_of_checked (x := (x.withdraw id).setStage id _) (Function.update_self ..)]
      exact outcome_of_reply (Function.update_self ..) hmute rfl
  | waiting =>
    rw [give_of_waiting (x := x.withdraw id) hstage, run_last_of_content?]
    · exact List.mem_append_right _ (List.mem_singleton.2 rfl)
    · rw [conclude_stage, Function.update_self]
      rfl

/-- Responses reach the requests that they answer, in every `run`. Requests have the numbers 1, 2, 3, … in the order
in which they are made, and among the `requestsOf` what is `sent` no two have one number. A request has at most one
of the `outcomes`: it is `stopped`, or `firstVerdict?`. While messages are read, a request that can be written is
sent and `waiting`, and the `verdict?` on a request that is waiting is its outcome at once; one that comes before
the request is sent is its outcome then. All that is still open are requests on which there was no verdict, and a
message with no verdict on one of these changes no outcome, now or later. And unless the client `isMute`, each
request of the server has had its answer once, in order: `answersOf` what is sent is what was `heardIn` the run. -/
theorem responses_reach_requests (moves : List Move) :
    let x := ({} : Exchange).run moves
    let requests := moves.filterMap Move.request?
    (x.client.nextId = requests.length + 1 ∧ ((requestsOf x.sent).map Prod.fst).Nodup ∧
      ∀ p ∈ requestsOf x.sent, 0 < p.1 ∧ requests[p.1 - 1]? = some p.2) ∧
    ((x.outcomes.map Prod.fst).Nodup ∧ ∀ id r, (id, r) ∈ x.outcomes →
      x.Made id ∧ (r = .error .stopped ∨ ({} : Exchange).firstVerdict? id moves = some r)) ∧
    (x.reader = .reading →
      (∀ method params, x.client.isMute = false →
        let y := x.run [.register method params, .check x.client.nextId, .send x.client.nextId]
        y.stage x.client.nextId = .waiting ∧ y.sent = x.sent ++ [.request x.client.nextId method params]) ∧
      ∀ id message r, verdict? id message = some r →
        (x.stage id = .waiting → (x.step (.receive message)).outcomes = x.outcomes ++ [(id, r)]) ∧
        (id ∈ x.client.pending → x.stage id ≠ .abandoned → x.client.isMute = false →
          (id, r) ∈ (x.run [.receive message, .check id, .send id]).outcomes)) ∧
    ((∀ id ∈ x.client.pending,
        x.Made id ∧ ({} : Exchange).firstVerdict? id moves = none ∧ ∀ r, (id, r) ∉ x.outcomes) ∧
      ∀ message after, (∀ id ∈ x.client.pending, verdict? id message = none) → .write false ∉ after →
        (x.run (.receive message :: after)).outcomes = (x.run after).outcomes) ∧
    (x.client.isMute = false → answersOf x.sent = (({} : Exchange).heardIn moves).filterMap answer?) := by
  intro x requests
  have hsound := sound_run moves
  have hnumbered := numbered_run moves
  refine ⟨⟨hnumbered.next, hnumbered.distinct, ?_⟩, ⟨hsound.once, fun id r hr => hsound.justified hr⟩, ?_,
    ⟨fun id hid => hsound.of_mem_pending hid, fun message after h hafter => outcomes_of_no_verdict h hafter⟩,
    answers_run moves⟩
  · intro p hp
    obtain ⟨hpos, hget, -⟩ := hnumbered.posts p hp
    exact ⟨hpos, hget⟩
  · intro hreading
    refine ⟨fun method params hmute => ?_, fun id message r hverdict => ⟨fun hs => ?_, fun hid hs hmute => ?_⟩⟩
    · exact waits_of_request x (hsound.isEnded_of_reading hreading) hmute method params
    · exact outcomes_of_verdict hsound hreading hs hverdict
    · exact outcome_of_early_verdict hsound hreading hmute hid hs hverdict

/-- Two requests, of which one waits and the other is not sent yet when the server speaks of it; and a request
of the server for two settings. -/
theorem responses_reach_requests_crossed :
    let asked : List Move := [.register "a" .null, .check 1, .send 1, .register "b" .null]
    let first := Json.obj [("id", .nat 1), ("result", .str "yes")]
    let second := Json.obj [("id", .nat 2), ("error", .obj [("code", .int (-1)), ("message", .str "no")])]
    let settings := Json.obj [("id", .str "c"), ("method", .str "workspace/configuration"),
      ("params", .obj [("items", .arr [.null, .null])])]
    let x := ({} : Exchange).run asked
    x.sent.map Outgoing.toJson =
        [.obj [("jsonrpc", .str "2.0"), ("id", .nat 1), ("method", .str "a"), ("params", .null)]] ∧
      (x.step (.receive first)).outcomes = [(1, .ok (.str "yes"))] ∧
      (2, .error (.server (-1) "no")) ∈ (x.run [.receive second, .check 2, .send 2]).outcomes ∧
      (∀ p ∈ requestsOf x.sent, 0 < p.1 ∧ [("a", Json.null), ("b", .null)][p.1 - 1]? = some p.2) ∧
      answersOf (x.step (.receive settings)).sent = [.answer (.str "c") (.arr [.null, .null])] := by
  intro asked first second settings x
  obtain ⟨⟨-, -, hnumbered⟩, -, hreading, -⟩ := responses_reach_requests asked
  obtain ⟨-, hverdict⟩ := hreading rfl
  obtain ⟨-, -, -, -, hanswers⟩ := responses_reach_requests (asked ++ [.receive settings])
  refine ⟨rfl, ?_, ?_, hnumbered, hanswers rfl⟩
  · exact (hverdict 1 first _ rfl).1 rfl
  · refine (hverdict 2 second _ rfl).2 ?_ ?_ rfl
    · decide
    · rintro ⟨⟩

end EmbeddedMarkup.Exchange
