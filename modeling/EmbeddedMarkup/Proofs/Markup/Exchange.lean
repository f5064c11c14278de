/-
Exchanges: a `Client` with those that call it, its reader and its writer, each going on by itself. A request is
made of three moves: `register`, `check`, in which it sees whether the output of the server has ended, and
`send`, in which it is sent or fails. The end of the output is made of moves as well: it is marked (`markEnd`),
the pending requests are collected (`collect`), and each of them is stopped (`stopNext`). These moves may follow
each other in any order, and what can happen in one of them is said once, in `Step`.
-/
import EmbeddedMarkup.Proofs.Markup.Account

namespace EmbeddedMarkup

/-- A request that is not sent yet, with the response if that came before. -/
structure Exchange.Draft where
  method : String
  params : Json
  reply : Option Response := none

/-- How far a request is: not made at all; registered; past the check whether the output of the server has
ended, with what it saw; sent, and its caller waits; sent, and its caller has left; or its caller has the outcome. -/
inductive Exchange.Stage where
  | unmade
  | registered (draft : Draft)
  | checked (draft : Draft) (sawEnd : Bool)
  | waiting
  | abandoned
  | concluded

/-- How far the reader is: it takes messages; the output has ended, and that is marked; or it has collected the
pending requests, of which these are still to be stopped. -/
inductive Exchange.Reader where
  | reading
  | ended
  | stopping (ids : List Nat)

/-- A client with its callers, its reader and its writer: how far each request is, the outcomes that callers
got, and the messages that the server was written. -/
structure Exchange where
  client : Client := {}
  stage : Nat → Exchange.Stage := fun _ => .unmade
  reader : Exchange.Reader := .reading
  outcomes : List (Nat × Response) := []
  written : List Outgoing := []

namespace Exchange

inductive Move where
  | register (method : String) (params : Json)
  | check (id : Nat)
  | send (id : Nat)
  | abandon (id : Nat)
  | notify (method : String) (params : Json)
  | receive (message : Json)
  | markEnd
  | collect
  | stopNext
  | write (succeeds : Bool)

/-! ## What a move does -/

def setStage (x : Exchange) (id : Nat) (s : Stage) : Exchange :=
  { x with stage := Function.update x.stage id s }

/-- The caller of a request gets its outcome. -/
def conclude (x : Exchange) (id : Nat) (response : Response) : Exchange :=
  { x.setStage id .concluded with outcomes := x.outcomes ++ [(id, response)] }

@[simp] theorem setStage_client (x : Exchange) (id : Nat) (s : Stage) : (x.setStage id s).client = x.client := rfl

@[simp] theorem setStage_reader (x : Exchange) (id : Nat) (s : Stage) : (x.setStage id s).reader = x.reader := rfl

@[simp] theorem setStage_outcomes (x : Exchange) (id : Nat) (s : Stage) : (x.setStage id s).outcomes = x.outcomes := rfl

@[simp] theorem setStage_stage (x : Exchange) (id : Nat) (s : Stage) :
    (x.setStage id s).stage = Function.update x.stage id s := rfl

@[simp] theorem conclude_client (x : Exchange) (id : Nat) (r : Response) : (x.conclude id r).client = x.client := rfl

@[simp] theorem conclude_reader (x : Exchange) (id : Nat) (r : Response) : (x.conclude id r).reader = x.reader := rfl

@[simp] theorem conclude_outcomes (x : Exchange) (id : Nat) (r : Response) :
    (x.conclude id r).outcomes = x.outcomes ++ [(id, r)] := rfl

@[simp] theorem conclude_stage (x : Exchange) (id : Nat) (r : Response) :
    (x.conclude id r).stage = Function.update x.stage id .concluded := rfl

/-- A response is given to a request: its caller has it when it waits, or as soon as it would. -/
def give (x : Exchange) (id : Nat) (response : Response) : Exchange :=
  match x.stage id with
  | .registered draft => x.setStage id (.registered { draft with reply := some response })
  | .checked draft sawEnd => x.setStage id (.checked { draft with reply := some response } sawEnd)
  | .waiting => x.conclude id response
  | _ => x

section

variable {x : Exchange} {id : Nat} {draft : Draft} {sawEnd : Bool}

theorem give_of_registered (hs : x.stage id = .registered draft) (r : Response) :
    x.give id r = x.setStage id (.registered { draft with reply := some r }) := by
  simp only [give, hs]

theorem give_of_checked (hs : x.stage id = .checked draft sawEnd) (r : Response) :
    x.give id r = x.setStage id (.checked { draft with reply := some r } sawEnd) := by
  simp only [give, hs]

theorem give_of_waiting (hs : x.stage id = .waiting) (r : Response) : x.give id r = x.conclude id r := by
  simp only [give, hs]

end

/-- What an `Effect` of the client brings about. -/
def undergo (x : Exchange) : Effect → Exchange
  | .settle id response => x.give id response
  | .write message => { x with written := x.written ++ [message] }
  | .log _ => x

/-- Takes up what a step of the client has brought about. -/
def takeUp (x : Exchange) : Client × List Effect → Exchange
  | (client, effects) => effects.foldl undergo { x with client }

/-- The exchange after a move. Moves out of turn change nothing. -/
def step (x : Exchange) : Move → Exchange
  | .register method params =>
    let (client, id) := x.client.register
    { x with client }.setStage id (.registered { method, params })
  | .check id =>
    match x.stage id with
    | .registered draft => x.setStage id (.checked draft x.client.isEnded)
    | _ => x
  | .send id =>
    match x.stage id with
    | .checked draft sawEnd =>
      match x.client.send sawEnd id draft.method draft.params with
      | (client, .error e) => { x with client }.conclude id (.error e)
      | (client, .ok _) =>
        match draft.reply with
        | some response => { x with client }.conclude id response
        | none => { x with client }.setStage id .waiting
    | _ => x
  | .abandon id =>
    match x.stage id with
    | .waiting => x.setStage id .abandoned
    | _ => x
  | .notify method params => x.takeUp (x.client.notify method params)
  | .receive message =>
    match x.reader with
    | .reading => x.takeUp (x.client.receive message)
    | _ => x
  | .markEnd =>
    match x.reader with
    | .reading => { x with client := x.client.markEnded, reader := .ended }
    | _ => x
  | .collect =>
    match x.reader with
    | .ended => { x with reader := .stopping x.client.pending }
    | _ => x
  | .stopNext =>
    match x.reader with
    | .stopping (id :: ids) => { x.takeUp (x.client.settle id (.error .stopped)) with reader := .stopping ids }
    | _ => x
  | .write succeeds => x.takeUp (x.client.writeNext succeeds)

def run (x : Exchange) (moves : List Move) : Exchange :=
  moves.foldl step x

@[simp] theorem run_nil (x : Exchange) : x.run [] = x := rfl

@[simp] theorem run_cons (x : Exchange) (mv : Move) (moves : List Move) :
    x.run (mv :: moves) = (x.step mv).run moves := rfl

theorem run_append (x : Exchange) (a b : List Move) : x.run (a ++ b) = (x.run a).run b :=
  List.foldl_append

/-! ## Messages from the server -/

/-- What a message says of the request with this id. It has to have the id, as an integer, and no method:
then it says that the request failed, if it has an error, and else gives its result, which may be null. -/
def verdict? (id : Nat) (message : Json) : Option Response :=
  if (message.get? "id").bind Json.int64? = some (id : Int) ∧ (message.get? "method").bind Json.str? = none then
    match message.get? "error" with
    | some error => some (.error (.server (((error.get? "code").bind Json.int64?).getD 0)
        (((error.get? "message").bind Json.str?).getD "")))
    | none => some (.ok ((message.get? "result").getD .null))
  else
    none

def itemCount (message : Json) : Nat :=
  (((message.get? "params").bind (·.get? "items")).bind Json.arr?).elim 0 List.length

/-- The answer that is due to a message with an id and a method, which is a request of the server: as many
nulls as it has items, if it asks for settings, and else null. -/
def answer? (message : Json) : Option Outgoing :=
  match message.get? "id", (message.get? "method").bind Json.str? with
  | some id, some method => some <| .answer id <|
    if method = "workspace/configuration" then .arr (List.replicate (itemCount message) .null) else .null
  | _, _ => none

theorem verdict?_of_method {message : Json} {method : String}
    (h : (message.get? "method").bind Json.str? = some method) (id : Nat) : verdict? id message = none := by
  simp [verdict?, h]

theorem verdict?_of_id {message : Json} {i : Option Int} (hid : (message.get? "id").bind Json.int64? = i)
    (hmethod : (message.get? "method").bind Json.str? = none) (id : Nat) :
    verdict? id message = if i = some (id : Int) then some (Incoming.responseOf message) else none := by
  simp only [verdict?, hid, hmethod, and_true, Incoming.responseOf]
  split
  · cases message.get? "error" <;> rfl
  · rfl

theorem verdict?_of_answer? {message : Json} {m : Outgoing} (h : answer? message = some m) (id : Nat) :
    verdict? id message = none := by
  unfold answer? at h
  split at h
  · rename_i hmethod
    exact verdict?_of_method hmethod id
  · cases h

theorem answerTo_eq (method : String) (message : Json) :
    Incoming.answerTo method message =
      if method = "workspace/configuration" then .arr (List.replicate (itemCount message) .null) else .null := by
  unfold Incoming.answerTo itemCount
  split
  · cases ((message.get? "params").bind (·.get? "items")).bind Json.arr? with
    | none => rfl
    | some items =>
      simp only [Option.getD_some, Option.elim_some, List.map_const']
  · rfl

/-- A message settles the pending request that it has a `verdict?` on. If there is none, it changes nothing but that
its answer is queued, if one is due. -/
theorem receive_cases (c : Client) (message : Json) :
    (∃ id r, id ∈ c.pending ∧ verdict? id message = some r ∧ c.receive message = (c.withdraw id, [.settle id r])) ∨
    ((∀ id ∈ c.pending, verdict? id message = none) ∧ ∃ lines : List LogLine,
      c.receive message = (((answer? message).bind c.enqueue?).getD c, lines.map .log)) := by
  unfold Client.receive Incoming.ofJson
  cases hid : message.get? "id" with
  | none =>
    have hanswer : answer? message = none := by simp [answer?, hid]
    refine .inr ⟨fun id _ => by simp [verdict?, hid], ?_⟩
    rw [hanswer]
    cases (message.get? "method").bind Json.str? with
    | none => exact ⟨[], rfl⟩
    | some method =>
      dsimp only
      split_ifs
      · cases Incoming.logText? message with
        | none => exact ⟨[], rfl⟩
        | some text => exact ⟨[⟨.debug, text, none⟩], rfl⟩
      · exact ⟨[], rfl⟩
  | some id =>
    cases hmethod : (message.get? "method").bind Json.str? with
    | some method =>
      have hanswer : answer? message = some (.answer id (Incoming.answerTo method message)) := by
        simp only [answer?, hid, hmethod, answerTo_eq]
      refine .inr ⟨fun id _ => verdict?_of_method hmethod id,
        [⟨.debug, "answering markup server request", none⟩], ?_⟩
      rw [hanswer]; rfl
    | none =>
      have hanswer : answer? message = none := by simp [answer?, hid, hmethod]
      have hverdict := verdict?_of_id (i := id.int64?) (by rw [hid, Option.bind_some]) hmethod
      rw [hanswer]
      dsimp only
      cases hint : id.int64? with
      | none =>
        refine .inr ⟨fun id _ => ?_, [⟨.warn, "response with unexpected id", none⟩], rfl⟩
        rw [hverdict, hint, if_neg (by simp)]
      | some i =>
        dsimp only
        unfold Client.settle
        split_ifs with hpos hpending
        · refine .inl ⟨i.toNat, Incoming.responseOf message, hpending, ?_, rfl⟩
          rw [hverdict, hint, if_pos (by simp [Int.toNat_of_nonneg hpos])]
        · refine .inr ⟨fun id hmem => ?_, [], rfl⟩
          rw [hverdict, hint, if_neg]
          rintro h
          cases h
          exact hpending (by simpa using hmem)
        · -- a number below zero is the id of no request
          refine .inr ⟨fun id _ => ?_, [], rfl⟩
          rw [hverdict, hint, if_neg]
          rintro h
          cases h
          exact hpos (Int.natCast_nonneg id)

/-! ## What can happen in a step -/

def Move.request? : Move → Option (String × Json)
  | .register method params => some (method, params)
  | _ => none

/-- The message that a move brings, if it is read. -/
def hears? (x : Exchange) : Move → Option Json
  | .receive message =>
    match x.reader with
    | .reading => some message
    | _ => none
  | _ => none

def withdraw (x : Exchange) (id : Nat) : Exchange :=
  { x with client := x.client.withdraw id }

def post (x : Exchange) (m : Outgoing) : Exchange :=
  { x with client := { x.client with queue := x.client.queue ++ [m] } }

/-- What can happen in a step, with everything that it needs and changes. -/
inductive Step (x : Exchange) : Move → Exchange → Prop where
  | idle {mv : Move} (hrequest : mv.request? = none)
      (hverdict : ∀ id ∈ x.client.pending, (x.hears? mv).bind (verdict? id) = none)
      (hanswer : x.client.isMute = false → (x.hears? mv).bind answer? = none) : Step x mv x
  | register (method : String) (params : Json) : Step x (.register method params)
      ({ x with client := x.client.register.1 }.setStage x.client.nextId (.registered { method, params }))
  | check {id : Nat} {draft : Draft} (h : x.stage id = .registered draft) :
      Step x (.check id) (x.setStage id (.checked draft x.client.isEnded))
  | send {id : Nat} {draft : Draft} (h : x.stage id = .checked draft false) (hmute : x.client.isMute = false)
      (hreply : draft.reply = none) :
      Step x (.send id) ((x.post (.request id draft.method draft.params)).setStage id .waiting)
  | sendReplied {id : Nat} {draft : Draft} {r : Response} (h : x.stage id = .checked draft false)
      (hmute : x.client.isMute = false) (hreply : draft.reply = some r) :
      Step x (.send id) ((x.post (.request id draft.method draft.params)).conclude id r)
  | fail {id : Nat} {draft : Draft} {sawEnd : Bool} (h : x.stage id = .checked draft sawEnd)
      (hstopped : sawEnd = true ∨ x.client.isMute = true) :
      Step x (.send id) ((x.withdraw id).conclude id (.error .stopped))
  | abandon {id : Nat} (h : x.stage id = .waiting) : Step x (.abandon id) (x.setStage id .abandoned)
  | notify {method : String} {params : Json} (hmute : x.client.isMute = false) :
      Step x (.notify method params) (x.post (.notification method params))
  | settle {message : Json} {id : Nat} {r : Response} (hreading : x.reader = .reading)
      (hpending : id ∈ x.client.pending) (hverdict : verdict? id message = some r) :
      Step x (.receive message) ((x.withdraw id).give id r)
  | answer {message : Json} {m : Outgoing} (hreading : x.reader = .reading) (hmute : x.client.isMute = false)
      (hverdict : ∀ id, verdict? id message = none) (hanswer : answer? message = some m) :
      Step x (.receive message) (x.post m)
  | markEnd (hreading : x.reader = .reading) :
      Step x .markEnd { x with client := x.client.markEnded, reader := .ended }
  | collect (hended : x.reader = .ended) : Step x .collect { x with reader := .stopping x.client.pending }
  | stop {id : Nat} {ids : List Nat} (hstopping : x.reader = .stopping (id :: ids)) (hpending : id ∈ x.client.pending) :
      Step x .stopNext { (x.withdraw id).give id (.error .stopped) with reader := .stopping ids }
  | skip {id : Nat} {ids : List Nat} (hstopping : x.reader = .stopping (id :: ids)) (hpending : id ∉ x.client.pending) :
      Step x .stopNext { x with reader := .stopping ids }
  | write {m : Outgoing} {rest : List Outgoing} (hqueue : x.client.queue = m :: rest) : Step x (.write true)
      { x with client := { x.client with queue := rest }, written := x.written ++ [m] }
  | breakDown {m : Outgoing} {rest : List Outgoing} (hqueue : x.client.queue = m :: rest) : Step x (.write false)
      { x with client := { x.client with queue := [], isMute := true } }

theorem send_cases (c : Client) (sawEnd : Bool) (id : Nat) (method : String) (params : Json) :
    (sawEnd = false ∧ c.isMute = false ∧
      c.send sawEnd id method params = ({ c with queue := c.queue ++ [.request id method params] }, .ok id)) ∨
    ((sawEnd = true ∨ c.isMute = true) ∧ c.send sawEnd id method params = (c.withdraw id, .error .stopped)) := by
  unfold Client.send Client.enqueue?
  cases sawEnd with
  | true => exact .inr ⟨.inl rfl, rfl⟩
  | false =>
    cases hmute : c.isMute with
    | true => exact .inr ⟨.inr rfl, rfl⟩
    | false => exact .inl ⟨rfl, rfl, rfl⟩

theorem takeUp_log (x : Exchange) (client : Client) (lines : List LogLine) :
    x.takeUp (client, lines.map .log) = { x with client } := by
  unfold takeUp
  induction lines with
  | nil => rfl
  | cons line lines ih => exact ih

theorem step_spec (x : Exchange) (mv : Move) : Step x mv (x.step mv) := by
  cases mv with
  | register method params => exact .register method params
  | check id =>
    simp only [step]
    split
    · exact .check ‹_›
    · exact .idle rfl (fun _ _ => rfl) fun _ => rfl
  | send id =>
    simp only [step]
    split
    · rename_i draft sawEnd hstage
      rcases send_cases x.client sawEnd id draft.method draft.params with ⟨rfl, hmute, hsend⟩ | ⟨hstopped, hsend⟩
      · -- the response may have come already
        rw [hsend]
        cases hreply : draft.reply with
        | none => exact .send hstage hmute hreply
        | some r => exact .sendReplied hstage hmute hreply
      · rw [hsend]
        exact .fail hstage hstopped
    · exact .idle rfl (fun _ _ => rfl) fun _ => rfl
  | abandon id =>
    simp only [step]
    split
    · exact .abandon ‹_›
    · exact .idle rfl (fun _ _ => rfl) fun _ => rfl
  | notify method params =>
    simp only [step, Client.notify, Client.enqueue?]
    split_ifs with hmute
    · exact .idle rfl (fun _ _ => rfl) fun _ => rfl
    · exact .notify (by simpa using hmute)
  | receive message =>
    simp only [step]
    split
    · rename_i hreading
      have hhears : x.hears? (.receive message) = some message := by simp only [hears?, hreading]
      rcases receive_cases x.client message with ⟨id, r, hpending, hverdict, hreceive⟩ | ⟨hverdict, lines, hreceive⟩
      · rw [hreceive]
        exact .settle hreading hpending hverdict
      · rw [hreceive, takeUp_log]
        cases hanswer : answer? message with
        | none => exact .idle rfl (by rwa [hhears]) fun _ => by rw [hhears]; exact hanswer
        | some m =>
          rw [Option.bind_some, Client.enqueue?]
          split_ifs with hmute
          · exact .idle rfl (by rwa [hhears]) fun h => by rw [hmute] at h; cases h
          · exact .answer hreading (by simpa using hmute) (fun id => verdict?_of_answer? hanswer id) hanswer
    · rename_i hreader
      have hhears : x.hears? (.receive message) = none := by
        simp only [hears?]
      exact .idle rfl (by rw [hhears]; exact fun _ _ => rfl) fun _ => by rw [hhears]; rfl
  | markEnd =>
    simp only [step]
    split
    · exact .markEnd ‹_›
    · exact .idle rfl (fun _ _ => rfl) fun _ => rfl
  | collect =>
    simp only [step]
    split
    · exact .collect ‹_›
    · exact .idle rfl (fun _ _ => rfl) fun _ => rfl
  | stopNext =>
    simp only [step]
    split
    · rename_i id ids hstopping
      unfold Client.settle
      split_ifs with hpending
      · exact .stop hstopping hpending
      · exact .skip hstopping hpending
    · exact .idle rfl (fun _ _ => rfl) fun _ => rfl
  | write succeeds =>
    simp only [step, Client.writeNext]
    split
    · exact .idle rfl (fun _ _ => rfl) fun _ => rfl
    · rename_i m rest hqueue
      cases succeeds with
      | true => exact .write hqueue
      | false => exact .breakDown hqueue

/-! ## The last steps of a request -/

section

variable {x : Exchange} {id : Nat} {draft : Draft} {sawEnd : Bool}

/-- What a request is to say, if it is not sent yet. -/
def Stage.content? : Stage → Option (String × Json)
  | registered draft => some (draft.method, draft.params)
  | checked draft _ => some (draft.method, draft.params)
  | _ => none

theorem run_last_of_registered (hs : x.stage id = .registered draft) :
    x.run [.check id, .send id] = (x.setStage id (.checked draft x.client.isEnded)).step (.send id) := by
  simp only [run_cons, run_nil, step, hs]

theorem run_last_of_checked (hs : x.stage id = .checked draft sawEnd) :
    x.run [.check id, .send id] = x.step (.send id) := by
  simp only [run_cons, run_nil, step, hs]

theorem run_last_of_content? (h : (x.stage id).content? = none) : x.run [.check id, .send id] = x := by
  cases hs : x.stage id with
  | registered draft => rw [hs] at h; cases h
  | checked draft sawEnd => rw [hs] at h; cases h
  | _ => simp only [run_cons, run_nil, step, hs]

theorem step_send_of_stopped (hs : x.stage id = .checked draft sawEnd)
    (hstopped : sawEnd = true ∨ x.client.isMute = true) :
    x.step (.send id) = (x.withdraw id).conclude id (.error .stopped) := by
  simp only [step, hs]
  rcases send_cases x.client sawEnd id draft.method draft.params with ⟨rfl, hmute, -⟩ | ⟨-, hsend⟩
  · simp [hmute] at hstopped
  · rw [hsend]
    rfl

theorem step_send_of_reply {r : Response} (hs : x.stage id = .checked draft false) (hmute : x.client.isMute = false)
    (hreply : draft.reply = some r) :
    x.step (.send id) = (x.post (.request id draft.method draft.params)).conclude id r := by
  simp only [step, hs]
  rcases send_cases x.client false id draft.method draft.params with ⟨-, -, hsend⟩ | ⟨hstopped, -⟩
  · rw [hsend]
    simp only [hreply]
    rfl
  · simp [hmute] at hstopped

end

/-! ## Whole requests and whole ends -/

/-- Registered, checked and sent without anything in between, a request is a `Client.request`. -/
theorem run_request (x : Exchange) (method : String) (params : Json) :
    x.run [.register method params, .check x.client.nextId, .send x.client.nextId] =
      match x.client.request method params with
      | (client, .ok _) => { x with client }.setStage x.client.nextId .waiting
      | (client, .error e) => { x with client }.conclude x.client.nextId (.error e) := by
  have hcheck : (x.step (.register method params)).step (.check x.client.nextId) =
      { x with client := x.client.register.1 }.setStage x.client.nextId
        (.checked { method, params } x.client.isEnded) := by
    simp only [step, Client.register, setStage, Function.update_self, Function.update_idem]
  have hrequest : x.client.request method params =
      x.client.register.1.send x.client.isEnded x.client.nextId method params := rfl
  rw [run_cons, run_cons, run_cons, run_nil, hcheck, hrequest]
  simp only [step, setStage, Function.update_self]
  rcases send_cases x.client.register.1 x.client.isEnded x.client.nextId method params with
    ⟨-, -, hsend⟩ | ⟨-, hsend⟩
  · rw [hsend]
    simp only [Function.update_idem]
  · rw [hsend]
    simp only [conclude, setStage, Function.update_idem]

theorem undergo_with (x : Exchange) (client : Client) (reader : Reader) (effect : Effect) :
    { x with client, reader }.undergo effect = { x.undergo effect with client, reader } := by
  cases effect with
  | settle id response =>
    simp only [undergo, give]
    cases x.stage id <;> rfl
  | write message => rfl
  | log line => rfl

/-- What `undergo` does depends neither on the client nor on the reader. -/
theorem foldl_undergo_with (x : Exchange) (client : Client) (reader : Reader) (effects : List Effect) :
    effects.foldl undergo { x with client, reader } = { effects.foldl undergo x with client, reader } := by
  induction effects generalizing x with
  | nil => rfl
  | cons effect effects ih => rw [List.foldl_cons, undergo_with, ih, List.foldl_cons]

theorem takeUp_eq (x : Exchange) (client : Client) (effects : List Effect) :
    x.takeUp (client, effects) = { effects.foldl undergo x with client, reader := x.reader } :=
  foldl_undergo_with x client x.reader effects

theorem takeUp_takeUp (x : Exchange) (c client : Client) (reader : Reader) (effects more : List Effect) :
    { x.takeUp (c, effects) with reader }.takeUp (client, more) =
      { x.takeUp (client, effects ++ more) with reader } := by
  rw [takeUp_eq, takeUp_eq, takeUp_eq, foldl_undergo_with, foldl_undergo_with, List.foldl_append]

theorem run_stopNext (x : Exchange) {ids : List Nat} (h : x.reader = .stopping ids) :
    x.run (List.replicate ids.length .stopNext) = { x.takeUp (x.client.stopAll ids) with reader := .stopping [] } := by
  induction ids generalizing x with
  | nil => rw [← h]; rfl
  | cons id ids ih =>
    have hstep : x.step .stopNext =
        { x.takeUp (x.client.settle id (.error .stopped)) with reader := .stopping ids } := by
      simp only [step, h]
    have hclient : (x.step .stopNext).client = (x.client.settle id (.error .stopped)).1 := by
      rw [hstep, takeUp_eq]
    rw [List.length_cons, List.replicate_succ, run_cons, ih _ (by rw [hstep]), hclient, hstep]
    exact congrArg (fun y => { y with reader := .stopping [] }) (takeUp_takeUp x ..)

/-- Marked, collected and stopped without anything in between, the end of the output is a `Client.endOutput`. -/
theorem run_endOutput (x : Exchange) (h : x.reader = .reading) (error : Option MarkupError) :
    x.run (.markEnd :: .collect :: List.replicate x.client.pending.length .stopNext) =
      { x.takeUp (x.client.endOutput error) with reader := .stopping [] } := by
  have hcollect : (x.step .markEnd).step .collect =
      { x with client := x.client.markEnded, reader := .stopping x.client.pending } := by
    simp only [step, h]
    rfl
  rw [run_cons, run_cons, hcollect]
  refine (run_stopNext _ rfl).trans ?_
  rw [takeUp_eq, foldl_undergo_with, Client.endOutput, takeUp_eq]
  rfl

end Exchange

end EmbeddedMarkup
