/-
Breakdowns: what becomes of requests when a message cannot be written while the output of the server stays open.
From `write false` on the client is mute. A request that was not sent by then fails, and so does every later one. A
request that was sent is `waiting` on, even if its message is lost: until the server says something of it after all,
its caller leaves, or the output ends.
-/
import EmbeddedMarkup.Markup.Dialogue
import EmbeddedMarkup.Proofs.Markup.Ending

namespace EmbeddedMarkup.Exchange

variable {heard : Nat → Option Response} {x y : Exchange} {id : Nat} {mv : Move}

/-! ## Nothing is written any more -/

theorem give_written (x : Exchange) (id : Nat) (r : Response) : (x.give id r).written = x.written := by
  unfold give
  split <;> rfl

theorem mute_step (hmute : x.client.isMute = true) (hqueue : x.client.queue = []) (hstep : Step x mv y) :
    y.client.isMute = true ∧ y.client.queue = [] ∧ y.written = x.written := by
  have hloud : x.client.isMute ≠ false := by simp [hmute]
  cases hstep with
  | send hs hmute' hreply => exact absurd hmute' hloud
  | sendReplied hs hmute' hreply => exact absurd hmute' hloud
  | notify hmute' => exact absurd hmute' hloud
  | answer hreading hmute' hverdict hanswer => exact absurd hmute' hloud
  | settle hreading hpending hverdict =>
    rw [give_client, give_written]
    exact ⟨hmute, hqueue, rfl⟩
  | stop hstopping hpending =>
    dsimp only
    rw [give_client, give_written]
    exact ⟨hmute, hqueue, rfl⟩
  | write hqueue' => rw [hqueue] at hqueue'; cases hqueue'
  | breakDown hqueue' => rw [hqueue] at hqueue'; cases hqueue'
  | _ => exact ⟨hmute, hqueue, rfl⟩

theorem mute_run (hmute : x.client.isMute = true) (hqueue : x.client.queue = []) (moves : List Move) :
    (x.run moves).client.isMute = true ∧ (x.run moves).client.queue = [] ∧ (x.run moves).written = x.written := by
  induction moves generalizing x with
  | nil => exact ⟨hmute, hqueue, rfl⟩
  | cons mv moves ih =>
    obtain ⟨hmute', hqueue', hwritten⟩ := mute_step hmute hqueue (step_spec x mv)
    rw [run_cons, ← hwritten]
    exact ih hmute' hqueue'

theorem step_breakDown (h : x.client.queue ≠ []) :
    x.step (.write false) = { x with client := { x.client with queue := [], isMute := true } } := by
  obtain ⟨m, rest, hqueue⟩ := List.exists_cons_of_ne_nil h
  simp only [step, Client.writeNext, hqueue]
  rfl

theorem isBarred_of_mute {c : Client} (hmute : c.isMute = true) {s : Stage} (h : s.content? ≠ none) : s.IsBarred c := by
  cases s with
  | registered draft => exact .inr hmute
  | checked draft sawEnd => exact .inr hmute
  | _ => exact absurd rfl h

/-- A call to a client that `isMute` has no result. -/
theorem start_of_mute {c : Client} (hmute : c.isMute = true) (call : Call) : (call.start c).2.2 = .ready .null := by
  have hrequest : ∀ method params, ∃ c', c.request method params = (c', .error .stopped) := by
    intro method params
    rcases send_cases c.register.1 c.isEnded c.nextId method params with ⟨-, hloud, -⟩ | ⟨-, hsend⟩
    · exact absurd (hmute.symm.trans hloud) (by decide)
    · exact ⟨_, hsend⟩
  cases call with
  | sync doc => rfl
  | close uri => rfl
  | ask doc query p =>
    obtain ⟨c', h⟩ := hrequest query.method (query.params doc.uri p)
    simp only [Call.start, Client.ask, h]
    rfl
  | shutdown =>
    obtain ⟨c', h⟩ := hrequest "shutdown" .null
    simp only [Call.start, Client.requestShutdown, h]
    rfl

/-! ## Requests that wait on -/

/-- Whether a move neither says anything of a request nor ends its caller's wait. -/
def Move.Spares (id : Nat) : Move → Prop
  | abandon i => i ≠ id
  | receive message => verdict? id message = none
  | markEnd => False
  | _ => True

theorem waits_step (h : Sound heard x) (hs : x.stage id = .waiting) (hreading : x.reader = .reading)
    (hmv : mv.Spares id) (hstep : Step x mv y) : y.stage id = .waiting ∧ y.reader = .reading := by
  obtain ⟨hmade, -⟩ := h.known_of_stage hs
  -- a step that is about a request at another stage is about another request
  have hother : ∀ {i : Nat}, x.stage i ≠ .waiting → id ≠ i := by
    rintro i hi rfl
    exact hi hs
  cases hstep with
  | register method params =>
    exact ⟨(Function.update_of_ne hmade.2.ne _ _).trans hs, hreading⟩
  | check hs' => exact ⟨(Function.update_of_ne (hother (by simp [hs'])) _ _).trans hs, hreading⟩
  | send hs' hmute hreply => exact ⟨(Function.update_of_ne (hother (by simp [hs'])) _ _).trans hs, hreading⟩
  | sendReplied hs' hmute hreply => exact ⟨(Function.update_of_ne (hother (by simp [hs'])) _ _).trans hs, hreading⟩
  | fail hs' hstopped => exact ⟨(Function.update_of_ne (hother (by simp [hs'])) _ _).trans hs, hreading⟩
  | abandon hs' => exact ⟨(Function.update_of_ne (Ne.symm hmv) _ _).trans hs, hreading⟩
  | @settle message i r _ hpending hverdict =>
    have hi : id ≠ i := by
      rintro rfl
      rw [show verdict? id message = none from hmv] at hverdict
      cases hverdict
    have ht : Touches x i ((x.withdraw i).give i r) := Touches.withdraw.trans (.give r)
    exact ⟨(ht.stage id hi).trans hs, ht.reader.trans hreading⟩
  | markEnd _ => exact hmv.elim
  | collect hended => rw [hreading] at hended; cases hended
  | stop hstopping hpending => rw [hreading] at hstopping; cases hstopping
  | skip hstopping hpending => rw [hreading] at hstopping; cases hstopping
  | _ => exact ⟨hs, hreading⟩

theorem waits_run (h : Sound heard x) (hs : x.stage id = .waiting) (hreading : x.reader = .reading)
    {moves : List Move} (hmoves : ∀ mv ∈ moves, mv.Spares id) : (x.run moves).stage id = .waiting := by
  induction moves generalizing x heard with
  | nil => exact hs
  | cons mv moves ih =>
    obtain ⟨hmv, hmoves⟩ := List.forall_mem_cons.1 hmoves
    obtain ⟨hs', hreading'⟩ := waits_step h hs hreading hmv (step_spec x mv)
    exact ih (h.step (step_spec x mv)) hs' hreading' hmoves

/-- After the move `write false` nothing is written any more, and every later call has no result. A request
that was not sent by then is never waited for and never sent, and its own steps let it fail as stopped.
But a request that is `waiting`, be its message written or lost, is pending and waits without an outcome as
long as every move `Spares` it: its caller stays, the output goes on and no message says anything of it.
Once the reader has finished, none is waited for. -/
theorem sent_requests_outlast_writer (moves : List Move) (h : (({} : Exchange).run moves).client.queue ≠ []) :
    let x := ({} : Exchange).run moves
    let broken := x.step (.write false)
    ∀ after,
      let y := broken.run after
      (y.client.isMute = true ∧ y.client.queue = [] ∧ y.written = x.written ∧
        ∀ call : Call, (call.start y.client).2.2 = .ready .null) ∧
      (∀ id, (y.stage id).content? ≠ none → ∀ more,
        let z := y.run more
        z.stage id ≠ .waiting ∧ id ∉ (requestsOf z.sent).map Prod.fst ∧
        (z.run [.check id, .send id]).outcomesOf id = [.error .stopped]) ∧
      (∀ id, x.stage id = .waiting → x.reader = .reading → (∀ mv ∈ after, mv.Spares id) →
        y.stage id = .waiting ∧ id ∈ y.client.pending ∧ y.outcomesOf id = []) ∧
      (y.reader = .stopping [] → ∀ id, y.stage id ≠ .waiting) := by
  intro x broken after y
  have hbroken : broken = { x with client := { x.client with queue := [], isMute := true } } := step_breakDown h
  have hy : y = ({} : Exchange).run (moves ++ .write false :: after) := by
    rw [run_append]
    rfl
  have hsound := sound_run (moves ++ .write false :: after)
  rw [← hy] at hsound
  obtain ⟨hmute, hqueue, hwritten⟩ : y.client.isMute = true ∧ y.client.queue = [] ∧ y.written = broken.written :=
    mute_run (by rw [hbroken]) (by rw [hbroken]) after
  refine ⟨⟨hmute, hqueue, hwritten.trans (by rw [hbroken]), start_of_mute hmute⟩, fun id hcontent more => ?_,
    fun id hs hreading hafter => ?_, fun hfinished id hs => ?_⟩
  · have hnumbered := numbered_run (moves ++ .write false :: after)
    rw [← hy] at hnumbered
    have hbarred := (Barred.of_content hsound hnumbered hcontent (isBarred_of_mute hmute hcontent)).run more
    refine ⟨hbarred.not_waiting, hbarred.unsent, hbarred.stopped (moves ++ .write false :: after ++ more) ?_⟩
    rw [run_append, ← hy]
  · have hstart := sound_run (moves ++ [.write false])
    rw [run_append] at hstart
    have hwaits : y.stage id = .waiting := by
      refine waits_run (x := broken) hstart ?_ ?_ hafter
      · rw [hbroken]
        exact hs
      · rw [hbroken]
        exact hreading
    obtain ⟨-, hout, hpending, -⟩ := hsound.known_of_stage hwaits
    exact ⟨hwaits, hpending, outcomesOf_eq_nil hout⟩
  · exact hsound.not_waiting_of_finished hfinished id hs

/-- Two requests are lost in the queue, and a message about another one changes nothing for them. -/
theorem sent_requests_outlast_writer_two :
    let moves : List Move := [.register "a" .null, .check 1, .send 1, .register "b" .null, .check 2, .send 2]
    let x := ({} : Exchange).run moves
    let y := (x.step (.write false)).run [.receive (.obj [("id", .nat 3)])]
    x.client.queue ≠ [] ∧ x.written = [] ∧ y.written = [] ∧
      (y.stage 1 = .waiting ∧ 1 ∈ y.client.pending ∧ y.outcomesOf 1 = []) ∧
      (y.stage 2 = .waiting ∧ 2 ∈ y.client.pending ∧ y.outcomesOf 2 = []) := by
  intro moves x y
  have hqueue : x.client.queue ≠ [] := List.cons_ne_nil _ _
  obtain ⟨⟨-, -, hwritten, -⟩, -, hwaits, -⟩ :=
    sent_requests_outlast_writer moves hqueue [.receive (.obj [("id", .nat 3)])]
  refine ⟨hqueue, rfl, hwritten, hwaits 1 rfl rfl ?_, hwaits 2 rfl rfl ?_⟩
  · exact List.forall_mem_singleton.2 rfl
  · exact List.forall_mem_singleton.2 rfl

/-- A hover is asked for when the server takes nothing any more: its message is not written, and yet it is
waited for. -/
theorem hover_waits_behind_broken_writer :
    let uri : Url := { scheme := "embedded-content".toList, host := some "html".toList,
                       path := "/file%3A%2F%2F%2Fa.rs/0.html".toList }
    let outcome := Dialogue.step ({} : Connection).hangUp (.call (.ask ⟨uri, ⟨0, 3⟩, "<a>".toList⟩ .hover ⟨0, 2⟩) [])
    outcome.1.client.isMute = true ∧ outcome.1.client.queue = [] ∧ outcome.1.client.pending = [1] ∧
      outcome.2.1 = [.log ⟨.error, "writing to markup server failed", some .io⟩] ∧
      outcome.2.2 = some (.waiting 1) :=
  ⟨rfl, rfl, rfl, rfl, rfl⟩

end EmbeddedMarkup.Exchange
