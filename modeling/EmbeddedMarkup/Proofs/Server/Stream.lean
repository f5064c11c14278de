/-
What the server sends to the markup server over a whole `run`: at every moment the documents open at the
markup server are virtual documents of the session, and every query is about a document of which the
markup server holds the content that was live when the query was sent.
-/
import EmbeddedMarkup.Proofs.Server.Turns
import Mathlib.Data.List.Induction

namespace EmbeddedMarkup.Server

open MarkupView (replay)

variable {s : Server}

/-! ## Steps -/

theorem absorb_of_no_settle {effects : List Effect} (h : ∀ n response, Effect.settle n response ∉ effects) :
    s.absorb effects = (s, Action.ofEffects effects) := by
  induction effects with
  | nil => rfl
  | cons e effects ih =>
    have ih := ih fun n response hm => h n response (List.mem_cons_of_mem _ hm)
    cases e with
    | settle n response => exact absurd (List.mem_cons_self ..) (h n response)
    | write m =>
      show ((s.absorb effects).1, [Action.write m] ++ (s.absorb effects).2) = _
      rw [ih]; rfl
    | log line =>
      show ((s.absorb effects).1, [Action.log line] ++ (s.absorb effects).2) = _
      rw [ih]; rfl

theorem keeps_markupWrite {past : List Outgoing} (h : s.Follows past) (succeeds : Bool) :
    Keeps s past (s.markupStep fun c => c.writeNext succeeds) := by
  unfold markupStep
  cases hc : s.markup with
  | none => exact (Turn.refl s).keeps h
  | some c =>
    have hsettle : ∀ n response, Effect.settle n response ∉ (c.writeNext succeeds).2 := by
      intro n response hm
      unfold Client.writeNext at hm
      split at hm
      · cases hm
      · split at hm <;> simp at hm
    -- nothing is settled by a write, so that the client's step is all there is
    obtain ⟨htold, hpart⟩ := (h.told c hc).writeNext succeeds
    dsimp only
    rw [absorb_of_no_settle hsettle]
    refine ⟨⟨h.wf, fun h' => ?_, fun x hx => ?_, fun x hx d hd => ?_⟩, .inl ?_⟩
    · have := (h.start h').1
      rw [hc] at this
      cases this
    · cases hx
      rw [Action.written_ofEffects]
      exact htold
    · cases hx
      rw [Client.writeNext_documents] at hd
      exact h.held c hc d hd
    · rw [sent, Action.written_ofEffects, ← List.append_assoc, queue, queue, hc]
      exact hpart

/-- Every `step` keeps `Follows`, for each event by the turn that its handler makes. -/
theorem keeps_step {past : List Outgoing} (h : s.Follows past) (w : Surroundings) (e : Event) :
    Keeps s past (s.step w e) := by
  cases e with
  | request id method params =>
    show Keeps s past (if s.stage = .exited then (s, []) else s.request w id method params)
    split
    · exact (Turn.refl s).keeps h
    · exact keeps_request h w id method params
  | notification method params =>
    show Keeps s past (if s.stage = .exited then (s, []) else s.notification method params)
    split
    · exact (Turn.refl s).keeps h
    · exact keeps_notification h method params
  | inserted ticket => exact (Turn.idle rfl rfl id rfl : Turn s (s.setPhase ticket .finished, [])).keeps h
  | markupMessage message =>
    exact (turn_markupStep (fun c => c.receive_written message) (fun _ _ h => h.receive message)
      fun c => c.receive_documents message).keeps h
  | markupEnded error =>
    exact (turn_markupStep (fun c => c.endOutput_written error) (fun _ _ h => h.endOutput error)
      fun c => c.endOutput_documents error).keeps h
  | markupWrite succeeds => exact keeps_markupWrite h succeeds
  | tick now => exact (turn_tick now).keeps h

/-! ## Runs -/

theorem run_append (w : Surroundings) (s : Server) (a b : List Event) :
    s.run w (a ++ b) = (((s.run w a).1.run w b).1, (s.run w a).2 ++ ((s.run w a).1.run w b).2) := by
  induction a generalizing s with
  | nil => rfl
  | cons e a ih =>
    simp only [List.cons_append, run, ih, List.append_assoc]

theorem run_snoc (w : Surroundings) (s : Server) (events : List Event) (e : Event) :
    s.run w (events ++ [e]) =
      (((s.run w events).1.step w e).1, (s.run w events).2 ++ ((s.run w events).1.step w e).2) := by
  rw [run_append]
  simp [run]

/-- Every `run` keeps `Follows`. -/
theorem run_follows (w : Surroundings) (events : List Event) :
    (run w {} events).1.Follows (Action.written (run w {} events).2) := by
  induction events using List.reverseRecOn with
  | nil => exact ⟨Session.empty_wf, fun _ => ⟨rfl, rfl⟩, fun c hc => (by cases hc), fun c hc => (by cases hc)⟩
  | append_singleton events e ih =>
    have h := (keeps_step ih w e).follows
    rw [run_snoc, Action.written_append]
    exact h

theorem sent_run_snoc (w : Surroundings) (events : List Event) (e : Event) :
    sent (run w {} (events ++ [e])) =
      Action.written (run w {} events).2 ++ sent ((run w {} events).1.step w e) := by
  rw [run_snoc, sent, Action.written_append, List.append_assoc]; rfl

/-- Every message was sent in some step, and the session of that moment `Allows` it. -/
theorem exists_step_of_sent (w : Surroundings) {events : List Event} {before after : List Outgoing} {m : Outgoing}
    (h : sent (run w {} events) = before ++ m :: after) :
    ∃ earlier e later, events = earlier ++ e :: later ∧ sent (run w {} earlier) <+: before ∧
      before ++ [m] <+: sent (run w {} (earlier ++ [e])) ∧
      (run w {} earlier).1.session.Allows (replay before) m := by
  induction events using List.reverseRecOn generalizing after with
  | nil => cases before <;> cases h
  | append_singleton events e ih =>
    have hm : before ++ [m] <+: sent (run w {} (events ++ [e])) := ⟨after, by rw [h]; simp⟩
    have hgrows := (keeps_step (run_follows w events) w e).grows
    rw [← sent_run_snoc] at hgrows
    -- the message is new in this step, or it was sent before
    by_cases hnew : sent (run w {} events) <+: before
    · refine ⟨events, e, [], rfl, hnew, hm, ?_⟩
      rcases hgrows with hpart | hgrows
      · have := (hm.trans (hpart.trans hnew)).length_le
        rw [List.length_append, List.length_singleton] at this
        omega
      · exact hgrows.allows h hnew
    · have hold : before ++ [m] <+: sent (run w {} events) := by
        rcases hgrows with hpart | hgrows
        · exact hm.trans hpart
        · rcases List.prefix_or_prefix_of_prefix hm hgrows.isPrefix with hp | hp
          · exact hp
          · rcases List.prefix_concat_iff.1 hp with hp | hp
            · exact hp ▸ List.prefix_refl _
            · exact absurd hp hnew
      obtain ⟨rest, hrest⟩ := hold
      rw [List.append_assoc, List.singleton_append] at hrest
      obtain ⟨earlier, e', later, rfl, hwhere⟩ := ih hrest.symm
      exact ⟨earlier, e', later ++ [e], by simp, hwhere⟩

/-- The markup server's view follows the session, whatever comes in whatever order: messages of the
editor, responses of the markup server, its end, writes, and the time. First, as long as the client
can write, every document that is open at the markup server after all that was sent is a virtual
document of a live host. Second, every request sent, but for those to start and to stop, is a `Query`
about a position in a virtual document that was live in the step in which the request was sent; its
parameters name that document and that position, the markup server has the document open, and what it
holds of it by then is the text of its region. -/
theorem markup_follows_session (w : Surroundings) (events : List Event) :
    let out := run w {} events
    (∀ c, out.1.markup = some c → c.isMute = false → ∀ key, (replay (sent out) key).isSome = true →
      ∃ host d, out.1.session.get? host = some d ∧ ∃ doc ∈ d.documents, doc.uri.toString = key) ∧
    ∀ before id method params after, sent out = before ++ .request id method params :: after →
      method ≠ "initialize" → method ≠ "shutdown" →
      ∃ earlier e later, events = earlier ++ e :: later ∧ sent (run w {} earlier) <+: before ∧
        before ++ [.request id method params] <+: sent (run w {} (earlier ++ [e])) ∧
        ∃ uri p i, (run w {} earlier).1.session.inquire? uri p = some i ∧
          ∃ q : Query, method = q.method ∧ params = q.params i.target.uri i.position ∧
            MarkupView.address? params = some i.target.uri.toString ∧
            params.get? "position" =
              some (.obj [("line", .nat i.position.line), ("character", .nat i.position.character)]) ∧
            replay before i.target.uri.toString = some i.target.content ∧
            i.target.region ∈ Region.scan i.host.text ∧
            Text.slice? i.host.text i.target.region.start i.target.region.stop = some i.target.content := by
  intro out
  have h := run_follows w events
  refine ⟨fun c hc hmute key hkey => ?_, fun before id method params after hsent hinit hshut => ?_⟩
  · -- what is open is what the client notes, and that is in the session
    have hview : replay (sent out) = c.view := by
      rw [sent, show out.1.queue = c.queue by rw [queue, hc]; rfl]
      exact (h.told c hc).shown hmute
    rw [hview] at hkey
    unfold Client.view at hkey
    cases hfind : c.documents.find? (fun d => d.uri.toString = key) with
    | none => rw [hfind] at hkey; cases hkey
    | some held =>
      have hkey : held.uri.toString = key := by simpa using List.find?_some hfind
      obtain ⟨host, d, hd, doc, hdoc, huri⟩ := h.held c hc held (List.mem_of_find?_eq_some hfind)
      exact ⟨host, d, hd, doc, hdoc, by rw [huri, hkey]⟩
  · obtain ⟨earlier, e, later, hevents, hbefore, hin, hallows⟩ := exists_step_of_sent w hsent
    refine ⟨earlier, e, later, hevents, hbefore, hin, ?_⟩
    rcases hallows with h' | h' | ⟨uri, p, i, hi, q, hmethod, hparams, hview⟩
    · exact absurd h' hinit
    · exact absurd h' hshut
    · -- the host was derived from its text, and so was the virtual document
      obtain ⟨hhost, hat⟩ := Session.inquire?_eq_some hi
      have hdoc := HostDocument.mem_of_documentAt? hat
      rw [(run_follows w earlier).wf.eq_make hhost] at hdoc
      obtain ⟨hregion, hslice, -⟩ := HostDocument.mem_documents_make hdoc
      have haddress := MarkupView.address?_params q i.target.uri i.position
      have hposition := (q.get?_params i.target.uri i.position).2
      rw [← hparams] at haddress hposition
      exact ⟨uri, p, i, hi, q, hmethod, hparams, haddress, hposition, hview, hregion, hslice⟩

/-- A question before a change of the document, and one behind it. The second one is about the region as the
change left it, and so is what the markup server holds by then. -/
theorem markup_follows_session_changed :
    let w : Surroundings := ⟨{}, fun _ _ => none, 1⟩
    let uri := Json.str "file:///a.rs"
    let hover (id : Nat) : Event := .request (.nat id) "textDocument/hover" (some (.obj [
      ("textDocument", .obj [("uri", uri)]), ("position", Position.toJson ⟨0, 5⟩)]))
    let events : List Event := [
      .request (.nat 1) "initialize" (some (.obj [("capabilities", .obj [])])),
      .markupMessage (.obj [("id", .nat 1), ("result", .null)]),
      .notification "textDocument/didOpen" (some (.obj [("textDocument", .obj [("uri", uri),
        ("languageId", .str "rust"), ("version", .nat 1), ("text", .text ['U', 'I', '!', '{', 'a', '}'])])])),
      hover 2,
      .notification "textDocument/didChange" (some (.obj [
        ("textDocument", .obj [("uri", uri), ("version", .nat 2)]),
        ("contentChanges", .arr [.obj [("range", Range.toJson ⟨⟨0, 5⟩, ⟨0, 5⟩⟩), ("text", .str "b")]])])),
      hover 3]
    let key := "embedded-content://html/file%3A%2F%2F%2Fa.rs/0.html"
    (∃ host d, (run w {} events).1.session.get? host = some d ∧ ∃ doc ∈ d.documents, doc.uri.toString = key) ∧
      ∃ before params, sent (run w {} events) = before ++ [.request 3 "textDocument/hover" params] ∧
        MarkupView.address? params = some key ∧ replay before key = some ['a', 'b'] ∧
        ∃ earlier e later uri p i, events = earlier ++ e :: later ∧
          (run w {} earlier).1.session.inquire? uri p = some i ∧ i.target.uri.toString = key ∧
          Text.slice? i.host.text i.target.region.start i.target.region.stop = some ['a', 'b'] := by
  intro w uri hover events key
  obtain ⟨hopen, hqueries⟩ := markup_follows_session w events
  have hlast : (sent (run w {} events)).getLast?.map (fun m => ((m.toJson.get? "id").bind Json.nat32?,
      (m.toJson.get? "method").bind Json.str?, (m.toJson.get? "params").bind MarkupView.address?)) =
      some (some 3, some "textDocument/hover", some key) := by decide +kernel
  have hheld : replay (sent (run w {} events)).dropLast key = some ['a', 'b'] := by decide +kernel
  constructor
  · have hmarkup : (run w {} events).1.markup.map (·.isMute) = some false := by decide +kernel
    have hkey : (replay (sent (run w {} events)) key).isSome = true := by decide +kernel
    obtain ⟨c, hc, hmute⟩ := Option.map_eq_some_iff.1 hmarkup
    exact hopen c hc hmute key hkey
  · obtain ⟨m, hm, hread⟩ := Option.map_eq_some_iff.1 hlast
    simp only [Prod.mk.injEq] at hread
    obtain ⟨hid, hmethod, hnamed⟩ := hread
    cases m with
    | request n method params =>
      obtain rfl : n = 3 := Json.eq_of_nat32?_nat hid
      obtain rfl : method = "textDocument/hover" := Option.some.inj hmethod
      have hsent := List.dropLast_append_getLast? _ hm
      obtain ⟨earlier, e, later, hevents, -, -, uri', p, i, hi, q, -, -, haddress, -, hcontent, -, hslice⟩ :=
        hqueries _ 3 "textDocument/hover" params [] hsent.symm (by decide) (by decide)
      have hkey : i.target.uri.toString = key := Option.some.inj (haddress.symm.trans hnamed)
      rw [hkey, hheld] at hcontent
      exact ⟨_, params, hsent.symm, hnamed, hheld, earlier, e, later, uri', p, i, hevents, hi, hkey,
        hslice.trans hcontent.symm⟩
    | notification method params => cases hid
    | answer id result => cases hmethod

end EmbeddedMarkup.Server
