/-
Ends: no request waits for a server whose output has ended. Once the reader has finished, each request that
was not answered has been stopped, or will be by its own next steps, and nothing stays pending. A request that
is made when the end is marked is barred: it is not sent, and it fails.
-/
import EmbeddedMarkup.Proofs.Keyed
import EmbeddedMarkup.Proofs.Markup.Responses

namespace EmbeddedMarkup.Exchange

/-- The `outcomes` of one request. -/
def outcomesOf (x : Exchange) (id : Nat) : List Response :=
  (x.outcomes.filter fun p => p.1 = id).map Prod.snd

variable {heard : Nat → Option Response} {x y : Exchange} {id i : Nat}

theorem Sound.outcomesOf_eq (h : Sound heard x) {r : Response} (hr : (id, r) ∈ x.outcomes) : x.outcomesOf id = [r] := by
  have hmem : (id, r) ∈ x.outcomes.filter fun p => p.1 = id := List.mem_filter.2 ⟨hr, by simp⟩
  have hlength : (x.outcomes.filter fun p => p.1 = id).length ≤ 1 :=
    Keyed.length_filter_le_one Prod.fst h.once fun p _ hp => by simpa using hp
  obtain ⟨p, hp⟩ := List.length_eq_one_iff.1 (Nat.le_antisymm hlength (List.length_pos_of_mem hmem))
  rw [hp, List.mem_singleton] at hmem
  rw [outcomesOf, hp, ← hmem, List.map_singleton]

theorem outcomesOf_eq_nil (h : ∀ r, (id, r) ∉ x.outcomes) : x.outcomesOf id = [] := by
  rw [outcomesOf, List.map_eq_nil_iff, List.filter_eq_nil_iff]
  rintro ⟨i, r⟩ hp hi
  obtain rfl : i = id := by simpa using hi
  exact h r hp

/-! ## When the reader has finished -/

theorem Sound.not_waiting_of_finished (h : Sound heard x) (hfinished : x.reader = .stopping []) (id : Nat) :
    x.stage id ≠ .waiting := by
  intro hs
  obtain ⟨-, -, hpending, -, hcaught⟩ := h.known_of_stage hs
  exact absurd (hcaught [] hfinished hpending) List.not_mem_nil

/-- Once the reader has finished, a request ends with its own next steps, unless its caller has left. -/
theorem Sound.concluded_of_finished (h : Sound heard x) (hfinished : x.reader = .stopping []) (hmade : x.Made id)
    (hs : x.stage id ≠ .abandoned) : (x.run [.check id, .send id]).stage id = .concluded := by
  have hended : x.client.isEnded = true := h.ended.2 (by simp [hfinished])
  cases hstage : x.stage id with
  | unmade => exact absurd hmade (h.known_of_stage hstage).1
  | abandoned => exact absurd hstage hs
  | waiting => exact absurd hstage (h.not_waiting_of_finished hfinished id)
  | concluded => rw [run_last_of_content? (by rw [hstage]; rfl), hstage]
  | registered draft =>
    rw [run_last_of_registered hstage,
      step_send_of_stopped (x := x.setStage id _) (Function.update_self ..) (.inl hended), conclude_stage,
      Function.update_self]
  | checked draft sawEnd =>
    obtain ⟨-, -, hholds, hsaw⟩ := h.known_of_stage hstage
    rw [run_last_of_checked hstage]
    by_cases hstopped : sawEnd = true ∨ x.client.isMute = true
    · rw [step_send_of_stopped hstage hstopped, conclude_stage, Function.update_self]
    · -- the request saw no end, so that the reader has stopped it and left a reply
      rw [not_or, Bool.not_eq_true, Bool.not_eq_true] at hstopped
      obtain ⟨rfl, hmute⟩ := hstopped
      cases hreply : draft.reply with
      | none =>
        rw [hreply] at hholds
        exact absurd (hsaw [] hfinished hholds.1) List.not_mem_nil
      | some r => rw [step_send_of_reply hstage hmute hreply, conclude_stage, Function.update_self]

theorem Sound.stopped_of_concluded (h : Sound heard x) (hs : x.stage id = .concluded) (hheard : heard id = none) :
    x.outcomesOf id = [.error .stopped] := by
  obtain ⟨-, -, r, hr, rfl | hjust⟩ := h.known_of_stage hs
  · exact h.outcomesOf_eq hr
  · rw [hheard] at hjust
    cases hjust

/-- Once the reader has finished, only a request before its last step is pending. -/
theorem Sound.content?_of_finished (h : Sound heard x) (hfinished : x.reader = .stopping [])
    (hid : id ∈ x.client.pending) : (x.stage id).content? ≠ none := by
  cases hs : x.stage id with
  | unmade => exact absurd hid (h.known_of_stage hs).2.1
  | registered draft => simp [Stage.content?]
  | checked draft sawEnd => simp [Stage.content?]
  | waiting => exact absurd hs (h.not_waiting_of_finished hfinished id)
  | abandoned =>
    obtain ⟨-, -, -, hcaught⟩ := h.known_of_stage hs
    exact absurd (hcaught [] hfinished hid) List.not_mem_nil
  | concluded => exact absurd hid (h.known_of_stage hs).2.1

/-! ## Barred requests -/

/-- Whether a request at this `Stage` will not be sent by the client. -/
def Stage.IsBarred (c : Client) : Stage → Prop
  | registered _ => c.isEnded = true ∨ c.isMute = true
  | checked _ sawEnd => sawEnd = true ∨ c.isMute = true
  | concluded => True
  | _ => False

/-- The request with this id is not sent, and fails, whatever follows: `Barred.step` keeps it so. -/
structure Barred (x : Exchange) (id : Nat) : Prop where
  made : id < x.client.nextId
  stage : (x.stage id).IsBarred x.client
  outcomes : ∀ r, (id, r) ∈ x.outcomes → r = .error .stopped
  unsent : id ∉ (requestsOf x.sent).map Prod.fst

namespace Barred

theorem isBarred_of_stage (h : Barred x id) {s : Stage} (hs : x.stage id = s) : s.IsBarred x.client :=
  hs ▸ h.stage

theorem congr (h : Barred x id) (hnext : x.client.nextId ≤ y.client.nextId) (hstage : y.stage id = x.stage id)
    (hended : x.client.isEnded = true → y.client.isEnded = true)
    (hmute : x.client.isMute = true → y.client.isMute = true)
    (houtcomes : ∀ r, (id, r) ∈ y.outcomes → (id, r) ∈ x.outcomes)
    (hsent : id ∈ (requestsOf y.sent).map Prod.fst → id ∈ (requestsOf x.sent).map Prod.fst) : Barred y id := by
  refine ⟨h.made.trans_le hnext, ?_, fun r hr => h.outcomes r (houtcomes r hr), fun hmem => h.unsent (hsent hmem)⟩
  rw [hstage]
  cases hs : x.stage id with
  | registered draft => exact (h.isBarred_of_stage hs).imp hended hmute
  | checked draft sawEnd => exact (h.isBarred_of_stage hs).imp_right hmute
  | concluded => trivial
  | _ => exact (h.isBarred_of_stage hs).elim

theorem setStage (h : Barred x id) (hi : id ≠ i) (s : Stage) : Barred (x.setStage i s) id :=
  h.congr le_rfl (Function.update_of_ne hi _ _) (fun he => he) (fun hm => hm) (fun _ hr => hr) fun hs => hs

theorem conclude (h : Barred x id) (hi : id ≠ i) (r : Response) : Barred (x.conclude i r) id := by
  refine h.congr le_rfl (Function.update_of_ne hi _ _) (fun he => he) (fun hm => hm) (fun r' hr => ?_) fun hs => hs
  simpa [hi] using hr

theorem withdraw (h : Barred x id) (i : Nat) : Barred (x.withdraw i) id :=
  h.congr le_rfl rfl (fun he => he) (fun hm => hm) (fun _ hr => hr) fun hs => hs

theorem post (h : Barred x id) {m : Outgoing} (hm : ∀ method params, m ≠ .request id method params) :
    Barred (x.post m) id := by
  refine h.congr le_rfl rfl (fun he => he) (fun hm => hm) (fun _ hr => hr) fun hs => ?_
  rw [post_sent, requestsOf_append, List.map_append, List.mem_append] at hs
  rcases hs with hs | hs
  · exact hs
  · cases m with
    | request i method params =>
      have hi : id = i := by simpa [requestsOf] using hs
      exact absurd (by rw [hi]) (hm method params)
    | _ => simp [requestsOf] at hs

theorem give (h : Barred x id) (i : Nat) (r : Response) : Barred (x.give i r) id := by
  unfold Exchange.give
  by_cases hi : id = i
  · subst hi
    -- a barred request has no caller that waits, and a reply does not change its stage
    split
    · rename_i hs
      have hbarred := h.isBarred_of_stage hs
      refine ⟨h.made, ?_, h.outcomes, h.unsent⟩
      rw [setStage_stage, Function.update_self]
      exact hbarred
    · rename_i hs
      have hbarred := h.isBarred_of_stage hs
      refine ⟨h.made, ?_, h.outcomes, h.unsent⟩
      rw [setStage_stage, Function.update_self]
      exact hbarred
    · rename_i hs
      exact (h.isBarred_of_stage hs).elim
    · exact h
  · split
    · exact h.setStage hi _
    · exact h.setStage hi _
    · exact h.conclude hi r
    · exact h

theorem ne_of_sent (h : Barred x id) {draft : Draft} (hs : x.stage i = .checked draft false)
    (hmute : x.client.isMute = false) : id ≠ i := by
  rintro rfl
  have hbarred := h.isBarred_of_stage hs
  simp [Stage.IsBarred, hmute] at hbarred

theorem step {mv : Move} (h : Barred x id) (hstep : Step x mv y) : Barred y id := by
  cases hstep with
  | idle hrequest hverdict hanswer => exact h
  | register method params =>
    refine h.congr (Nat.le_succ _) (Function.update_of_ne h.made.ne _ _) (fun he => he) (fun hm => hm)
      (fun _ hr => hr) fun hs => hs
  | @check i draft hs =>
    by_cases hi : id = i
    · subst hi
      have hbarred := h.isBarred_of_stage hs
      refine ⟨h.made, ?_, h.outcomes, h.unsent⟩
      rw [setStage_stage, Function.update_self]
      exact hbarred
    · exact h.setStage hi _
  | @send i draft hs hmute hreply =>
    have hi := h.ne_of_sent hs hmute
    exact (h.post fun method params hm => hi (by cases hm; rfl)).setStage hi _
  | @sendReplied i draft r hs hmute hreply =>
    have hi := h.ne_of_sent hs hmute
    exact (h.post fun method params hm => hi (by cases hm; rfl)).conclude hi r
  | @fail i draft sawEnd hs hstopped =>
    by_cases hi : id = i
    · subst hi
      refine ⟨h.made, ?_, fun r hr => ?_, h.unsent⟩
      · rw [conclude_stage, Function.update_self]
        trivial
      · rcases List.mem_append.1 hr with hr | hr
        · exact h.outcomes r hr
        · cases List.mem_singleton.1 hr
          rfl
    · exact (h.withdraw i).conclude hi _
  | @abandon i hs =>
    refine h.setStage ?_ _
    rintro rfl
    exact h.isBarred_of_stage hs
  | notify hmute => exact h.post fun _ _ hm => by cases hm
  | settle hreading hpending hverdict => exact (h.withdraw _).give _ _
  | answer hreading hmute hverdict hanswer =>
    obtain ⟨_, _, rfl⟩ := exists_of_answer? hanswer
    exact h.post fun _ _ hm => by cases hm
  | markEnd hreading => exact h.congr le_rfl rfl (fun _ => rfl) (fun hm => hm) (fun _ hr => hr) fun hs => hs
  | collect hended => exact h.congr le_rfl rfl (fun he => he) (fun hm => hm) (fun _ hr => hr) fun hs => hs
  | stop hstopping hpending =>
    exact ((h.withdraw _).give _ _).congr le_rfl rfl (fun he => he) (fun hm => hm) (fun _ hr => hr) fun hs => hs
  | skip hstopping hpending =>
    exact h.congr le_rfl rfl (fun he => he) (fun hm => hm) (fun _ hr => hr) fun hs => hs
  | write hqueue =>
    refine h.congr le_rfl rfl (fun he => he) (fun hm => hm) (fun _ hr => hr) fun hs => ?_
    simpa [sent, hqueue] using hs
  | breakDown hqueue =>
    refine h.congr le_rfl rfl (fun he => he) (fun _ => rfl) (fun _ hr => hr) fun hs => ?_
    unfold sent at hs ⊢
    rw [List.append_nil] at hs
    rw [requestsOf_append, List.map_append]
    exact List.mem_append_left _ hs

theorem run (h : Barred x id) (moves : List Move) : Barred (x.run moves) id := by
  induction moves generalizing x with
  | nil => exact h
  | cons mv moves ih => exact ih (h.step (step_spec x mv))

theorem not_waiting (h : Barred x id) : x.stage id ≠ .waiting :=
  fun hs => h.isBarred_of_stage hs

/-- The last steps of a barred request: it fails, and nothing is sent. -/
theorem concluded (h : Barred x id) :
    (x.run [.check id, .send id]).stage id = .concluded ∧ (x.run [.check id, .send id]).sent = x.sent := by
  cases hs : x.stage id with
  | registered draft =>
    have hbarred := h.isBarred_of_stage hs
    rw [run_last_of_registered hs, step_send_of_stopped (x := x.setStage id _) (Function.update_self ..) hbarred]
    exact ⟨Function.update_self .., rfl⟩
  | checked draft sawEnd =>
    rw [run_last_of_checked hs, step_send_of_stopped hs (h.isBarred_of_stage hs)]
    exact ⟨Function.update_self .., rfl⟩
  | concluded =>
    rw [run_last_of_content? (by rw [hs]; rfl)]
    exact ⟨hs, rfl⟩
  | _ => exact (h.isBarred_of_stage hs).elim

/-- A request that is not sent yet and will not be by the client is barred. -/
theorem of_content {requests : List (String × Json)} (hsound : Sound heard x) (hnumbered : Numbered requests x)
    (hcontent : (x.stage id).content? ≠ none) (hbarred : (x.stage id).IsBarred x.client) : Barred x id := by
  have hunsent : id ∉ (requestsOf x.sent).map Prod.fst := by
    intro hmem
    obtain ⟨p, hp, rfl⟩ := List.mem_map.1 hmem
    exact hcontent (hnumbered.posts p hp).2.2
  cases hs : x.stage id with
  | registered draft =>
    obtain ⟨hmade, hout, -⟩ := hsound.known_of_stage hs
    exact ⟨hmade.2, hbarred, fun r hr => absurd hr (hout r), hunsent⟩
  | checked draft sawEnd =>
    obtain ⟨hmade, hout, -⟩ := hsound.known_of_stage hs
    exact ⟨hmade.2, hbarred, fun r hr => absurd hr (hout r), hunsent⟩
  | _ =>
    rw [hs] at hcontent
    exact absurd rfl hcontent

/-- A request that is made when the output has ended or nothing can be written is barred. -/
theorem of_register {moves : List Move} (hx : x = ({} : Exchange).run moves)
    (hclosed : x.client.isEnded = true ∨ x.client.isMute = true) (method : String) (params : Json) :
    Barred (x.step (.register method params)) x.client.nextId := by
  have hrun : x.step (.register method params) = ({} : Exchange).run (moves ++ [.register method params]) := by
    rw [run_append, ← hx]
    rfl
  have hstage : (x.step (.register method params)).stage x.client.nextId = .registered { method, params } :=
    Function.update_self ..
  refine of_content (hrun ▸ sound_run _) (hrun ▸ numbered_run _) ?_ ?_
  · rw [hstage]
    exact Option.some_ne_none _
  · rw [hstage]
    exact hclosed

theorem stopped (moves : List Move) (hx : x = ({} : Exchange).run moves) (h : Barred x id) :
    (x.run [.check id, .send id]).outcomesOf id = [.error .stopped] := by
  have hsound := sound_run (moves ++ [.check id, .send id])
  rw [run_append, ← hx] at hsound
  obtain ⟨-, -, r, hr, -⟩ := hsound.known_of_stage h.concluded.1
  rw [hsound.outcomesOf_eq hr, (h.run _).outcomes r hr]

end Barred

theorem firstVerdict?_last (x : Exchange) (id : Nat) (moves : List Move) :
    x.firstVerdict? id (moves ++ [.check id, .send id]) = x.firstVerdict? id moves := by
  rw [show moves ++ [.check id, .send id] = (moves ++ [.check id]) ++ [.send id] by simp, firstVerdict?_snoc,
    firstVerdict?_snoc]
  simp [verdictIn?, hears?]

/-- No request waits for a server whose output has ended, whatever the order of the moves. The reader can always
finish, by `markEnd`, `collect` and `stopNext`. Once it has, no caller waits; a request without a `firstVerdict?`
fails just once, as stopped, when its own `check` and `send` are done; and when those of all requests are, none is
pending. A request that is made after the end was
marked is never waited for and never sent, and its own steps let it fail as stopped. -/
theorem no_request_waits_after_end (moves : List Move) :
    let x := ({} : Exchange).run moves
    (x.reader = .reading →
      (x.run (.markEnd :: .collect :: List.replicate x.client.pending.length .stopNext)).reader = .stopping []) ∧
    (x.reader = .stopping [] →
      (∀ id, x.stage id ≠ .waiting) ∧
      (∀ id, x.Made id → x.stage id ≠ .abandoned → ({} : Exchange).firstVerdict? id moves = none →
        ((x.stage id).content? = none → x.outcomesOf id = [.error .stopped]) ∧
        (x.run [.check id, .send id]).outcomesOf id = [.error .stopped]) ∧
      ((∀ id, (x.stage id).content? = none) → x.client.pending = [])) ∧
    (x.client.isEnded = true → ∀ method params after,
      let id := x.client.nextId
      let y := (x.step (.register method params)).run after
      y.stage id ≠ .waiting ∧ id ∉ (requestsOf y.sent).map Prod.fst ∧
      (y.run [.check id, .send id]).sent = y.sent ∧
      (y.run [.check id, .send id]).outcomesOf id = [.error .stopped]) := by
  intro x
  have hsound := sound_run moves
  refine ⟨fun hreading => ?_, fun hfinished => ⟨fun id => hsound.not_waiting_of_finished hfinished id,
    fun id hmade hs hheard => ?_, fun hdone => ?_⟩, fun hended method params after => ?_⟩
  · rw [run_endOutput x hreading none]
  · have hlast := sound_run (moves ++ [.check id, .send id])
    rw [run_append] at hlast
    have hstopped := hlast.stopped_of_concluded (hsound.concluded_of_finished hfinished hmade hs)
      ((firstVerdict?_last {} id moves).trans hheard)
    refine ⟨fun hcontent => ?_, hstopped⟩
    rwa [run_last_of_content? hcontent] at hstopped
  · refine List.eq_nil_iff_forall_not_mem.2 fun id hid => ?_
    exact hsound.content?_of_finished hfinished hid (hdone id)
  · have hbarred := (Barred.of_register rfl (.inl hended) method params).run after
    refine ⟨hbarred.not_waiting, hbarred.unsent, hbarred.concluded.2, ?_⟩
    refine Barred.stopped (moves ++ .register method params :: after) ?_ hbarred
    rw [run_append]
    rfl

/-- The end falls between the check and the sending of a request, which is collected and thus stopped; a request
made behind it is never sent. -/
theorem no_request_waits_after_end_between :
    let moves : List Move := [.register "a" .null, .check 1, .markEnd, .collect, .send 1, .stopNext]
    let x := ({} : Exchange).run moves
    (({} : Exchange).run [.register "a" .null, .check 1, .send 1, .markEnd, .collect, .stopNext]).reader = .stopping [] ∧
      x.reader = .stopping [] ∧ x.outcomesOf 1 = [.error .stopped] ∧
      ∃ y, y = x.run [.register "b" .null, .check 2, .send 2] ∧ y.stage 2 ≠ .waiting ∧
        2 ∉ (requestsOf y.sent).map Prod.fst ∧ y.outcomesOf 2 = [.error .stopped] := by
  intro moves x
  obtain ⟨hfinish, -⟩ := no_request_waits_after_end [.register "a" .null, .check 1, .send 1]
  obtain ⟨-, hdone, hlate⟩ := no_request_waits_after_end moves
  obtain ⟨-, hstopped, -⟩ := hdone rfl
  obtain ⟨hwaits, hunsent, -⟩ := hlate rfl "b" .null [.check 2, .send 2]
  obtain ⟨-, -, -, hfails⟩ := hlate rfl "b" .null []
  have hfirst := (hstopped 1 (by decide) (by rintro ⟨⟩) rfl).1 rfl
  exact ⟨hfinish rfl, rfl, hfirst, _, rfl, hwaits, hunsent, hfails⟩

end EmbeddedMarkup.Exchange
