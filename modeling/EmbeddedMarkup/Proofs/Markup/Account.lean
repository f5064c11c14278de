/-
The client's account of the markup server: the documents that it notes as held, its `view`, are those
that are open at the server after all that was sent, each with the content noted, as long as it can
write. Every operation of the client keeps the account, `Told`, and sends only what is allowed, `Sends`.
-/
import EmbeddedMarkup.Markup.Call
import EmbeddedMarkup.Proofs.Keyed
import EmbeddedMarkup.Proofs.Markup.View
import EmbeddedMarkup.Proofs.Session.Virtual
import Mathlib.Data.List.Find

namespace EmbeddedMarkup

open MarkupView (replay)

/-! ## Messages among effects -/

/-- The messages among effects. -/
def Effect.written (effects : List Effect) : List Outgoing :=
  effects.filterMap fun
    | .write m => some m
    | _ => none

theorem Effect.written_append (a b : List Effect) : written (a ++ b) = written a ++ written b :=
  List.filterMap_append

theorem Query.conclude_written (q : Query) (response : Response) : Effect.written (q.conclude response).2 = [] := by
  unfold Query.conclude
  split
  · rfl
  · split <;> rfl

namespace Client

@[simp] theorem notify_written (c : Client) (method : String) (params : Json) :
    Effect.written (c.notify method params).2 = [] := by
  unfold notify
  split <;> rfl

theorem sync_written (c : Client) (doc : VirtualDocument) : Effect.written (c.sync doc).2 = [] := by
  unfold sync
  split
  · exact notify_written ..
  · split
    · rfl
    · exact notify_written ..

theorem closeAll_written (c : Client) (uris : List Url) : Effect.written (c.closeAll uris).2 = [] := by
  induction uris generalizing c with
  | nil => rfl
  | cons uri uris ih =>
    have hclose : Effect.written (c.close uri).2 = [] := by
      unfold close
      split
      · rfl
      · exact notify_written ..
    rw [closeAll, Effect.written_append, hclose, ih, List.nil_append]

theorem concludeShutdown_written (c : Client) (response : Response) :
    Effect.written (c.concludeShutdown response).2 = [] := by
  unfold concludeShutdown
  dsimp only
  rw [Effect.written_append, notify_written]
  split <;> rfl

theorem settle_written (c : Client) (id : Nat) (response : Response) :
    Effect.written (c.settle id response).2 = [] := by
  unfold settle
  split <;> rfl

theorem receive_written (c : Client) (message : Json) : Effect.written (c.receive message).2 = [] := by
  unfold receive
  split
  · split
    · exact settle_written ..
    · rfl
  all_goals rfl

theorem endOutput_written (c : Client) (error : Option MarkupError) : Effect.written (c.endOutput error).2 = [] := by
  have hstop : ∀ (c : Client) (ids : List Nat), Effect.written (c.stopAll ids).2 = [] := by
    intro c ids
    induction ids generalizing c with
    | nil => rfl
    | cons id ids ih => rw [stopAll, Effect.written_append, settle_written, ih, List.nil_append]
  exact hstop c.markEnded c.pending

/-! ## What the client notes -/

/-- What the client notes as held by the server. -/
def view (c : Client) : MarkupView :=
  fun key => (c.documents.find? fun d => d.uri.toString = key).map (·.content)

/-- Whether all documents that are noted have virtual URIs. -/
def IsVirtual (c : Client) : Prop :=
  ∀ d ∈ c.documents, ∃ v : VirtualUri, d.uri = v.url

theorem toString_eq_iff {u u' : Url} (h : ∃ v : VirtualUri, u = v.url) (h' : ∃ v : VirtualUri, u' = v.url) :
    u.toString = u'.toString ↔ u = u' := by
  obtain ⟨v, rfl⟩ := h
  obtain ⟨v', rfl⟩ := h'
  exact ⟨VirtualUri.url_toString_inj, fun h => by rw [h]⟩

/-- The lookup `document?` of a virtual document may go by the text of its address. -/
theorem document?_eq {c : Client} (hc : c.IsVirtual) {uri : Url} (hu : ∃ v : VirtualUri, uri = v.url) :
    c.document? uri = c.documents.find? fun d => d.uri.toString = uri.toString := by
  unfold document?
  refine List.find?_congr fun d hd => ?_
  rw [decide_eq_decide, toString_eq_iff (hc d hd) hu]

theorem forget_documents {c : Client} (hc : c.IsVirtual) {uri : Url} (hu : ∃ v : VirtualUri, uri = v.url) :
    (c.forget uri).documents = c.documents.filter fun d => d.uri.toString ≠ uri.toString := by
  refine List.filter_congr fun d hd => ?_
  rw [decide_eq_decide, Ne, Ne, toString_eq_iff (hc d hd) hu]

theorem view_forget {c : Client} (hc : c.IsVirtual) {uri : Url} (hu : ∃ v : VirtualUri, uri = v.url) :
    (c.forget uri).view = Function.update c.view uri.toString none := by
  funext key
  unfold view
  rw [forget_documents hc hu, Keyed.find?_erase fun d : OpenDocument => d.uri.toString, Function.update_apply]
  split <;> rfl

theorem view_hold {c : Client} (hc : c.IsVirtual) {d : OpenDocument} (hd : ∃ v : VirtualUri, d.uri = v.url) :
    (c.hold d).view = Function.update c.view d.uri.toString (some d.content) := by
  funext key
  have hdocs : (c.hold d).documents = (c.documents.filter fun x => x.uri.toString ≠ d.uri.toString) ++ [d] := by
    rw [← forget_documents hc hd]; rfl
  unfold view
  rw [hdocs, Keyed.find?_put fun d : OpenDocument => d.uri.toString, Function.update_apply]
  split <;> rfl

theorem IsVirtual.forget {c : Client} (hc : c.IsVirtual) (uri : Url) : (c.forget uri).IsVirtual :=
  fun d hd => hc d (List.mem_filter.1 hd).1

theorem IsVirtual.hold {c : Client} (hc : c.IsVirtual) {d : OpenDocument} (hd : ∃ v : VirtualUri, d.uri = v.url) :
    (c.hold d).IsVirtual := by
  intro d' hd'
  rcases List.mem_append.1 hd' with hd' | hd'
  · exact hc.forget d.uri d' hd'
  · rw [List.mem_singleton] at hd'
    exact hd' ▸ hd

/-! ## Notifications about documents -/

theorem address?_obj (uri : Url) (rest more : List (String × Json)) :
    MarkupView.address? (.obj (("textDocument", .obj (("uri", uri.toJson) :: rest)) :: more)) = some uri.toString :=
  rfl

theorem text?_obj (uri language version : Json) (t : Text) :
    MarkupView.text? (.obj [("textDocument", .obj [("uri", uri), ("languageId", language), ("version", version),
      ("text", .text t)])]) = some t := by
  show some (String.ofList t).toList = some t
  rw [String.toList_ofList]

theorem changes?_obj (document : Json) (t : Text) :
    MarkupView.changes? (.obj [("textDocument", document), ("contentChanges", .arr [.obj [("text", .text t)]])]) =
      some [⟨none, none, t⟩] := by
  show some [(⟨none, none, (String.ofList t).toList⟩ : Change)] = _
  rw [String.toList_ofList]

theorem take_didOpen (view : MarkupView) (uri : Url) (language version : Json) (t : Text) :
    view.take (.notification "textDocument/didOpen" (.obj [("textDocument", .obj [("uri", uri.toJson),
      ("languageId", language), ("version", version), ("text", .text t)])])) =
      Function.update view uri.toString (some t) := by
  simp only [MarkupView.take, address?_obj, text?_obj, Option.some_or]

theorem take_didChange (view : MarkupView) (uri : Url) (version : Json) (t : Text) :
    view.take (.notification "textDocument/didChange" (.obj [("textDocument", .obj [("uri", uri.toJson),
      ("version", version)]), ("contentChanges", .arr [.obj [("text", .text t)]])])) =
      Function.update view uri.toString ((view uri.toString).map fun _ => t) := by
  simp only [MarkupView.take, address?_obj, changes?_obj]
  rfl

theorem take_didClose (view : MarkupView) (uri : Url) :
    view.take (.notification "textDocument/didClose" (.obj [("textDocument", .obj [("uri", uri.toJson)])])) =
      Function.update view uri.toString none := by
  simp only [MarkupView.take, address?_obj]

/-! ## Documents -/

@[simp] theorem notify_documents (c : Client) (method : String) (params : Json) :
    (c.notify method params).1.documents = c.documents := by
  unfold notify enqueue?
  by_cases h : c.isMute = true
  · rw [if_pos h]
  · rw [if_neg h]

@[simp] theorem request_documents (c : Client) (method : String) (params : Json) :
    (c.request method params).1.documents = c.documents := by
  unfold request send enqueue?
  dsimp only
  split
  · rename_i c' h
    split at h
    · cases h
    · split at h
      · cases h
      · cases h; rfl
  · rfl

@[simp] theorem settle_documents (c : Client) (id : Nat) (response : Response) :
    (c.settle id response).1.documents = c.documents := by
  unfold settle
  split <;> rfl

@[simp] theorem stopAll_documents (c : Client) (ids : List Nat) : (c.stopAll ids).1.documents = c.documents := by
  induction ids generalizing c with
  | nil => rfl
  | cons id ids ih => rw [stopAll, ih, settle_documents]

@[simp] theorem receive_documents (c : Client) (message : Json) : (c.receive message).1.documents = c.documents := by
  unfold receive enqueue?
  split
  · split
    · exact settle_documents ..
    · rfl
  · rfl
  · dsimp only
    split <;> rfl
  · rfl
  · rfl

@[simp] theorem endOutput_documents (c : Client) (error : Option MarkupError) :
    (c.endOutput error).1.documents = c.documents :=
  stopAll_documents c.markEnded c.pending

@[simp] theorem writeNext_documents (c : Client) (succeeds : Bool) :
    (c.writeNext succeeds).1.documents = c.documents := by
  unfold writeNext
  split
  · rfl
  · split <;> rfl

theorem mem_documents_sync {c : Client} {doc : VirtualDocument} {d : OpenDocument}
    (h : d ∈ (c.sync doc).1.documents) : d ∈ c.documents ∨ d.uri = doc.uri := by
  have hold : ∀ n, d ∈ (c.hold ⟨doc.uri, n, doc.content⟩).documents → d ∈ c.documents ∨ d.uri = doc.uri := by
    intro n hd
    rcases List.mem_append.1 hd with hd | hd
    · exact .inl (List.mem_filter.1 hd).1
    · rw [List.mem_singleton] at hd
      exact .inr (by rw [hd])
  unfold sync at h
  split at h
  · rw [notify_documents] at h
    exact hold 1 h
  · split at h
    · exact .inl h
    · rw [notify_documents] at h
      exact hold _ h

/-- After `sync` the content of the virtual document is noted. -/
theorem view_sync {c : Client} (hc : c.IsVirtual) {doc : VirtualDocument} (hdoc : ∃ v : VirtualUri, doc.uri = v.url) :
    (c.sync doc).1.view doc.uri.toString = some doc.content := by
  have hold : ∀ n method params,
      ((c.hold ⟨doc.uri, n, doc.content⟩).notify method params).1.view doc.uri.toString = some doc.content := by
    intro n method params
    have heq : ((c.hold ⟨doc.uri, n, doc.content⟩).notify method params).1.view =
        (c.hold ⟨doc.uri, n, doc.content⟩).view := by unfold view; rw [notify_documents]
    rw [heq, view_hold hc hdoc]
    exact Function.update_self ..
  unfold sync
  split
  · exact hold ..
  · rename_i held hheld
    split
    · rename_i heq
      rw [document?_eq hc hdoc] at hheld
      unfold view
      rw [hheld, Option.map_some, heq]
    · exact hold ..

theorem mem_documents_close {c : Client} {uri : Url} {d : OpenDocument} (h : d ∈ (c.close uri).1.documents) :
    d ∈ c.documents ∧ d.uri ≠ uri := by
  unfold close at h
  split at h
  · rename_i hnone
    refine ⟨h, ?_⟩
    have := List.find?_eq_none.1 hnone d h
    simpa using this
  · rw [notify_documents] at h
    have h := List.mem_filter.1 h
    exact ⟨h.1, by simpa using h.2⟩

theorem mem_documents_closeAll {c : Client} {uris : List Url} {d : OpenDocument}
    (h : d ∈ (c.closeAll uris).1.documents) : d ∈ c.documents ∧ d.uri ∉ uris := by
  induction uris generalizing c with
  | nil => exact ⟨h, List.not_mem_nil⟩
  | cons uri uris ih =>
    obtain ⟨h, hrest⟩ := ih h
    obtain ⟨h, huri⟩ := mem_documents_close h
    exact ⟨h, fun hm => (List.mem_cons.1 hm).elim huri hrest⟩

/-! ## The account -/

/-- The invariant of a client of which `past` was written so far: what it notes is what the server will
hold after the queue, unless the client cannot write any more. -/
structure Told (c : Client) (past : List Outgoing) : Prop where
  virtual : c.IsVirtual
  shown : c.isMute = false → replay (past ++ c.queue) = c.view

/-- An operation leads from `c` to `c'`: what was sent grows by what the session allows, and the
account is kept. -/
structure Sends (s : Session) (past : List Outgoing) (c c' : Client) : Prop where
  told : c'.Told past
  grows : s.Grows (past ++ c.queue) (past ++ c'.queue)

theorem Sends.trans {s : Session} {past : List Outgoing} {a b c : Client} (h : Sends s past a b)
    (h' : Sends s past b c) : Sends s past a c :=
  ⟨h'.told, h.grows.trans h'.grows⟩

namespace Told

variable {s : Session} {c c' : Client} {past : List Outgoing}

/-- Only documents, queue and voice matter to `Told`. -/
theorem congr (h : c.Told past) (hd : c'.documents = c.documents) (hq : c'.queue = c.queue)
    (hm : c'.isMute = c.isMute) : c'.Told past := by
  have hview : c'.view = c.view := by unfold view; rw [hd]
  refine ⟨fun d hd' => h.virtual d (hd ▸ hd'), fun h' => ?_⟩
  rw [hq, hview]
  exact h.shown (hm ▸ h')

theorem sends_self (h : c.Told past) : Sends s past c c :=
  ⟨h, .refl⟩

/-- A message may be sent if the server's view after it, by `take`, is what the client notes then. -/
theorem offer (h : c.Told past) (hv : c'.IsVirtual) (hq : c'.queue = c.queue) (hm : c'.isMute = c.isMute)
    {m : Outgoing} (hview : c.view.take m = c'.view) (hok : s.Allows c.view m) :
    Sends s past c ((c'.enqueue? m).getD c') := by
  unfold enqueue?
  split
  · -- nothing is sent any more, and the account need not be right
    rename_i hmute
    refine ⟨⟨hv, fun h' => ?_⟩, by rw [Option.getD_none, hq]; exact .refl⟩
    rw [Option.getD_none, hmute] at h'
    cases h'
  · -- the message is the last one of the stream, so that one step of the replay is left to see
    rename_i hmute
    rw [Bool.not_eq_true, hm] at hmute
    have hshown := h.shown hmute
    refine ⟨⟨hv, fun _ => ?_⟩, ?_⟩
    · rw [Option.getD_some, hq, ← List.append_assoc, MarkupView.replay_append_singleton, hshown]
      exact hview
    · rw [Option.getD_some, hq, ← List.append_assoc]
      exact .send .refl (hshown ▸ hok)

theorem notify (h : c.Told past) (hv : c'.IsVirtual) (hq : c'.queue = c.queue) (hm : c'.isMute = c.isMute)
    {method : String} {params : Json} (hview : c.view.take (.notification method params) = c'.view) :
    Sends s past c (c'.notify method params).1 := by
  have hfst : (c'.notify method params).1 = (c'.enqueue? (.notification method params)).getD c' := by
    unfold Client.notify
    split <;> (rename_i h; rw [h]; rfl)
  rw [hfst]
  exact h.offer hv hq hm hview trivial

theorem sync (h : c.Told past) {doc : VirtualDocument} (hdoc : ∃ v : VirtualUri, doc.uri = v.url) :
    Sends s past c (c.sync doc).1 := by
  unfold Client.sync
  split
  · refine h.notify (h.virtual.hold hdoc) rfl rfl ?_
    rw [take_didOpen, view_hold h.virtual hdoc]
  · rename_i held hheld
    split
    · exact h.sends_self
    · refine h.notify (h.virtual.hold hdoc) rfl rfl ?_
      have hview : c.view doc.uri.toString = some held.content := by
        unfold view
        rw [← document?_eq h.virtual hdoc, hheld]; rfl
      rw [take_didChange, view_hold h.virtual hdoc, hview]; rfl

theorem close (h : c.Told past) (uri : Url) : Sends s past c (c.close uri).1 := by
  unfold Client.close
  split
  · exact h.sends_self
  · rename_i held hheld
    have huri : ∃ v : VirtualUri, uri = v.url := by
      have heq : held.uri = uri := by simpa using List.find?_some hheld
      exact heq ▸ h.virtual held (List.mem_of_find?_eq_some hheld)
    refine h.notify (h.virtual.forget uri) rfl rfl ?_
    rw [take_didClose, view_forget h.virtual huri]

theorem closeAll (h : c.Told past) (uris : List Url) : Sends s past c (c.closeAll uris).1 := by
  induction uris generalizing c with
  | nil => exact h.sends_self
  | cons uri uris ih =>
    have h₁ := h.close (s := s) uri
    exact h₁.trans (ih h₁.told)

theorem request (h : c.Told past) {method : String} {params : Json}
    (hok : ∀ id, s.Allows c.view (.request id method params)) : Sends s past c (c.request method params).1 := by
  -- registering sends nothing; whether the message is offered then depends on the end of the output
  have hreg : c.register.1.Told past := h.congr rfl rfl rfl
  have hoffer := hreg.offer (s := s) hreg.virtual rfl rfl (m := .request c.register.2 method params) rfl (hok _)
  unfold Client.request Client.send
  dsimp only
  split
  · rename_i c' hc'
    split at hc'
    · cases hc'
    · rw [hc', Option.getD_some] at hoffer
      exact ⟨hoffer.told, hoffer.grows⟩
  · exact ⟨hreg.congr rfl rfl rfl, .refl⟩

theorem settle (h : c.Told past) (id : Nat) (response : Response) : Sends s past c (c.settle id response).1 := by
  unfold Client.settle
  split
  · exact ⟨h.congr rfl rfl rfl, .refl⟩
  · exact h.sends_self

/-- `receive` sends at most the answer to a request of the server. -/
theorem receive (h : c.Told past) (message : Json) : Sends s past c (c.receive message).1 := by
  unfold Client.receive
  split
  · split
    · exact h.settle ..
    · exact h.sends_self
  · exact h.sends_self
  · exact h.offer h.virtual rfl rfl rfl trivial
  · exact h.sends_self
  · exact h.sends_self

theorem stopAll (h : c.Told past) (ids : List Nat) : Sends s past c (c.stopAll ids).1 := by
  induction ids generalizing c with
  | nil => exact h.sends_self
  | cons id ids ih =>
    have h₁ := h.settle (s := s) id (.error .stopped)
    exact h₁.trans (ih h₁.told)

theorem endOutput (h : c.Told past) (error : Option MarkupError) : Sends s past c (c.endOutput error).1 := by
  have hended : Sends s past c c.markEnded := ⟨h.congr rfl rfl rfl, .refl⟩
  exact hended.trans (hended.told.stopAll _)

/-- `writeNext` moves a message from the queue to what is written; if it fails, the client is mute. -/
theorem writeNext (h : c.Told past) (succeeds : Bool) :
    let past' := past ++ Effect.written (c.writeNext succeeds).2
    (c.writeNext succeeds).1.Told past' ∧ past' ++ (c.writeNext succeeds).1.queue <+: past ++ c.queue := by
  unfold Client.writeNext
  split
  · rw [show Effect.written [] = [] from rfl, List.append_nil]
    exact ⟨h, List.prefix_refl _⟩
  · rename_i m rest hqueue
    -- the message changes places only
    have hpast : (past ++ [m]) ++ rest = past ++ c.queue := by
      rw [hqueue, List.append_assoc, List.singleton_append]
    split
    · refine ⟨⟨h.virtual, fun hm => ?_⟩, hpast ▸ List.prefix_refl _⟩
      exact hpast ▸ h.shown hm
    · refine ⟨⟨h.virtual, fun hm => (by cases hm)⟩, ?_⟩
      rw [show Effect.written [.log _] = [] from rfl, List.append_nil, List.append_nil]
      exact List.prefix_append ..

end Told

end Client

end EmbeddedMarkup
