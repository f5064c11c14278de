/-
What a client says about documents. For each address it speaks in rounds: in a `Round` the document is
opened as version 1, changed to versions 2, 3 and so on, and closed, before it may be opened again. A
call that `IsIdle` says nothing, and no call says anything about another address. Whoever listens, by
`MarkupView.replay`, holds the contents that were `synced` last.
-/
import EmbeddedMarkup.Proofs.Markup.Account

namespace EmbeddedMarkup

open MarkupView (replay)

/-! ## Notices -/

/-- What a markup server is told of a document. -/
inductive DocumentNotice where
  | opened (version : Nat) (text : Text)
  | changed (version : Nat) (text : Text)
  | closed
  deriving DecidableEq

namespace DocumentNotice

/-- The message with a notice about the document at `uri`. A change is told by the whole text. -/
def message (uri : Url) : DocumentNotice → Outgoing
  | opened version text =>
    .notification "textDocument/didOpen" (.obj [
      ("textDocument", .obj [("uri", uri.toJson), ("languageId", .str "html"),
        ("version", .nat version), ("text", .text text)])])
  | changed version text =>
    .notification "textDocument/didChange" (.obj [
      ("textDocument", .obj [("uri", uri.toJson), ("version", .nat version)]),
      ("contentChanges", .arr [.obj [("text", .text text)]])])
  | closed => .notification "textDocument/didClose" (.obj [("textDocument", .obj [("uri", uri.toJson)])])

/-- The document that the server holds after a notice. -/
def leaves (uri : Url) : DocumentNotice → Option OpenDocument
  | opened version text => some ⟨uri, version, text⟩
  | changed version text => some ⟨uri, version, text⟩
  | closed => none

/-- The notices about one address. -/
def about (uri : Url) (notes : List (Url × DocumentNotice)) : List DocumentNotice :=
  (notes.filter fun n => n.1 = uri).map (·.2)

theorem about_snoc (uri : Url) (notes : List (Url × DocumentNotice)) (uri' : Url) (n : DocumentNotice) :
    about uri (notes ++ [(uri', n)]) = if uri' = uri then about uri notes ++ [n] else about uri notes := by
  unfold about
  by_cases h : uri' = uri <;> simp [h]

end DocumentNotice

/-- The texts that a document has from when it is opened until it is closed: the `first`, and those that it is
changed to. -/
structure Round where
  first : Text
  later : List Text := []

namespace Round

/-- Changes to consecutive versions. -/
def changesFrom (version : Nat) : List Text → List DocumentNotice
  | [] => []
  | t :: ts => .changed version t :: changesFrom (version + 1) ts

/-- The notices of a round that goes on: opened as version 1, then changed to versions 2, 3, … -/
def begun (r : Round) : List DocumentNotice :=
  .opened 1 r.first :: changesFrom 2 r.later

/-- The notices of a round that is over: those of `begun`, and the closing. -/
def ended (r : Round) : List DocumentNotice :=
  r.begun ++ [.closed]

/-- What the server holds in a round. -/
def held (uri : Url) (r : Round) : OpenDocument :=
  ⟨uri, r.later.length + 1, r.later.getLast?.getD r.first⟩

theorem changesFrom_concat (version : Nat) (ts : List Text) (t : Text) :
    changesFrom version (ts ++ [t]) = changesFrom version ts ++ [.changed (version + ts.length) t] := by
  induction ts generalizing version with
  | nil => rfl
  | cons x ts ih =>
    rw [List.cons_append, changesFrom, ih, changesFrom, List.cons_append, List.length_cons]
    congr 4
    omega

theorem begun_concat (r : Round) (t : Text) :
    begun ⟨r.first, r.later ++ [t]⟩ = r.begun ++ [.changed (r.later.length + 2) t] := by
  rw [begun, changesFrom_concat, begun, List.cons_append, Nat.add_comm]

end Round

/-! ## Calls -/

/-- A call about a document. -/
inductive DocumentCall where
  | sync (doc : VirtualDocument)
  | close (uri : Url)

namespace DocumentCall

/-- The address that a call is about. -/
def uri : DocumentCall → Url
  | sync doc => doc.uri
  | close uri => uri

/-- The call to a client. -/
def call : DocumentCall → Call
  | sync doc => .sync doc
  | close uri => .close uri

/-- The contents synced last, by address, after a call. -/
def record (contents : Url → Option Text) : DocumentCall → Url → Option Text
  | sync doc => Function.update contents doc.uri (some doc.content)
  | close uri => Function.update contents uri none

/-- The content that was synced last for each address that was synced since it was closed. -/
def synced (calls : List DocumentCall) : Url → Option Text :=
  calls.foldl record fun _ => none

/-- Whether there is nothing to tell. -/
def IsIdle (contents : Url → Option Text) : DocumentCall → Prop
  | sync doc => contents doc.uri = some doc.content
  | close uri => contents uri = none

theorem record_of_ne (call : DocumentCall) (contents : Url → Option Text) {uri : Url} (h : uri ≠ call.uri) :
    call.record contents uri = contents uri := by
  cases call with
  | sync doc => exact Function.update_of_ne h _ _
  | close uri => exact Function.update_of_ne h _ _

end DocumentCall

namespace Client

/-- The client after a call about a document. -/
def serve (c : Client) (call : DocumentCall) : Client :=
  (call.call.start c).1

/-- The client after a list of calls about documents. -/
def serveAll (c : Client) (calls : List DocumentCall) : Client :=
  calls.foldl serve c

/-- The contents that the client notes, by address. -/
def contents (c : Client) (uri : Url) : Option Text :=
  (c.document? uri).map (·.content)

/-- The notice that a call leads to. -/
def notice? (c : Client) : DocumentCall → Option DocumentNotice
  | .sync doc =>
    match c.document? doc.uri with
    | none => some (.opened 1 doc.content)
    | some held => if held.content = doc.content then none else some (.changed (held.version + 1) doc.content)
  | .close uri => (c.document? uri).map fun _ => .closed

/-! ## What a call does -/

theorem document?_hold (c : Client) (d : OpenDocument) (uri : Url) :
    (c.hold d).document? uri = if uri = d.uri then some d else c.document? uri :=
  Keyed.find?_put OpenDocument.uri c.documents d uri

theorem document?_forget (c : Client) (uri uri' : Url) :
    (c.forget uri).document? uri' = if uri' = uri then none else c.document? uri' :=
  Keyed.find?_erase OpenDocument.uri c.documents uri uri'

theorem notify_of_open {c : Client} (h : c.isMute = false) (method : String) (params : Json) :
    (c.notify method params).1 = { c with queue := c.queue ++ [.notification method params] } := by
  unfold notify enqueue?
  rw [h]; rfl

theorem serve_of_none {c : Client} {call : DocumentCall} (h : c.notice? call = none) : c.serve call = c := by
  cases call with
  | sync doc =>
    show (c.sync doc).1 = c
    cases hdoc : c.document? doc.uri with
    | none => simp [notice?, hdoc] at h
    | some held =>
      have hsame : held.content = doc.content := by simpa [notice?, hdoc] using h
      simp only [sync, hdoc, if_pos hsame]
  | close uri =>
    show (c.close uri).1 = c
    simp only [close, Option.map_eq_none_iff.1 h]

/-- Unless it `isMute`, a client tells the server of a `notice?` and notes what the server then holds. -/
theorem serve_of_some {c : Client} (hopen : c.isMute = false) {call : DocumentCall} {n : DocumentNotice}
    (h : c.notice? call = some n) :
    (c.serve call).isMute = false ∧ (c.serve call).queue = c.queue ++ [n.message call.uri] ∧
      ∀ uri, (c.serve call).document? uri = if uri = call.uri then n.leaves call.uri else c.document? uri := by
  cases call with
  | sync doc =>
    have hsync : c.serve (.sync doc) = (c.sync doc).1 := rfl
    cases hdoc : c.document? doc.uri with
    | none =>
      simp only [notice?, hdoc, Option.some.injEq] at h
      subst h
      simp only [hsync, sync, hdoc]
      rw [notify_of_open (show (c.hold _).isMute = false from hopen)]
      exact ⟨hopen, rfl, c.document?_hold _⟩
    | some held =>
      by_cases hsame : held.content = doc.content
      · simp [notice?, hdoc, hsame] at h
      · simp only [notice?, hdoc, if_neg hsame, Option.some.injEq] at h
        subst h
        simp only [hsync, sync, hdoc, if_neg hsame]
        rw [notify_of_open (show (c.hold _).isMute = false from hopen)]
        exact ⟨hopen, rfl, c.document?_hold _⟩
  | close uri =>
    have hclose : c.serve (.close uri) = (c.close uri).1 := rfl
    obtain ⟨held, hheld, rfl⟩ := Option.map_eq_some_iff.1 h
    simp only [hclose, close, hheld]
    rw [notify_of_open (show (c.forget uri).isMute = false from hopen)]
    exact ⟨hopen, rfl, c.document?_forget uri⟩

theorem notice?_eq_none_iff (c : Client) (call : DocumentCall) :
    c.notice? call = none ↔ call.IsIdle c.contents := by
  cases call with
  | sync doc =>
    simp only [notice?, DocumentCall.IsIdle, contents]
    cases c.document? doc.uri with
    | none => simp
    | some held => simp
  | close uri => simp [notice?, DocumentCall.IsIdle, contents]

/-- What a notice `leaves` at the server is what the call syncs, or nothing. -/
theorem content_leaves {c : Client} {call : DocumentCall} {n : DocumentNotice} (h : c.notice? call = some n) :
    (n.leaves call.uri).map (·.content) = call.record c.contents call.uri := by
  cases call with
  | sync doc =>
    simp only [DocumentCall.record, DocumentCall.uri, Function.update_self]
    simp only [notice?] at h
    split at h
    · cases h; rfl
    · split at h
      · cases h
      · cases h; rfl
  | close uri =>
    obtain ⟨held, -, rfl⟩ := Option.map_eq_some_iff.1 h
    simp only [DocumentCall.record, DocumentCall.uri, Function.update_self]
    rfl

/-- `serve` leaves what the call is about noted as synced, or as closed, by `record`. -/
theorem contents_serve {c : Client} (hopen : c.isMute = false) (call : DocumentCall) :
    (c.serve call).contents = call.record c.contents := by
  cases hn : c.notice? call with
  | none =>
    rw [serve_of_none hn]
    have hidle := (c.notice?_eq_none_iff call).1 hn
    cases call with
    | sync doc => exact (Function.update_eq_self_iff.2 hidle.symm).symm
    | close uri => exact (Function.update_eq_self_iff.2 hidle.symm).symm
  | some n =>
    obtain ⟨-, -, hdoc⟩ := serve_of_some hopen hn
    funext uri
    unfold contents
    rw [hdoc]
    by_cases hu : uri = call.uri
    · rw [if_pos hu, hu]
      exact content_leaves hn
    · rw [if_neg hu]
      exact (call.record_of_ne c.contents hu).symm

/-! ## Rounds -/

/-- The invariant of a client that said `notes`: about each address it spoke in rounds, of which the
last one goes on just when it notes the document as held. -/
structure Speaks (c : Client) (notes : List (Url × DocumentNotice)) : Prop where
  voice : c.isMute = false
  rounds : ∀ uri, ∃ (rounds : List Round) (last : Option Round),
    DocumentNotice.about uri notes = rounds.flatMap Round.ended ++ last.elim [] Round.begun ∧
      c.document? uri = last.map (Round.held uri)

namespace Speaks

variable {c : Client} {notes : List (Url × DocumentNotice)}

/-- A `notice?` goes on with the round of its address, or begins or ends one. -/
theorem extends_round (h : c.Speaks notes) {call : DocumentCall} {n : DocumentNotice} (hn : c.notice? call = some n) :
    ∃ (rounds : List Round) (last : Option Round),
      DocumentNotice.about call.uri notes ++ [n] = rounds.flatMap Round.ended ++ last.elim [] Round.begun ∧
        n.leaves call.uri = last.map (Round.held call.uri) := by
  obtain ⟨rounds, last, habout, hdoc⟩ := h.rounds call.uri
  rw [habout]
  cases call with
  | sync doc =>
    simp only [notice?] at hn
    simp only [DocumentCall.uri] at hdoc ⊢
    split at hn
    · rename_i hnone
      cases hn
      rw [hdoc, Option.map_eq_none_iff] at hnone
      subst hnone
      exact ⟨rounds, some ⟨doc.content, []⟩, by simp [Round.begun, Round.changesFrom], rfl⟩
    · rename_i held hheld
      split at hn
      · cases hn
      · cases hn
        rw [hdoc] at hheld
        obtain ⟨r, rfl, rfl⟩ := Option.map_eq_some_iff.1 hheld
        refine ⟨rounds, some ⟨r.first, r.later ++ [doc.content]⟩, ?_, ?_⟩
        · simp only [Option.elim_some, Round.begun_concat, Round.held, List.append_assoc]
        · simp [DocumentNotice.leaves, Round.held]
  | close uri =>
    obtain ⟨held, hheld, rfl⟩ := Option.map_eq_some_iff.1 hn
    simp only [DocumentCall.uri] at hdoc ⊢
    rw [hdoc] at hheld
    obtain ⟨r, rfl, -⟩ := Option.map_eq_some_iff.1 hheld
    exact ⟨rounds ++ [r], none, by simp [Round.ended], rfl⟩

/-- Every call is at most one notice more, about the address of the call. -/
theorem serve (h : c.Speaks notes) (call : DocumentCall) :
    (c.serve call).Speaks (notes ++ ((c.notice? call).map (call.uri, ·)).toList) ∧
      (c.serve call).queue = c.queue ++ ((c.notice? call).map (·.message call.uri)).toList := by
  cases hn : c.notice? call with
  | none =>
    rw [serve_of_none hn]
    simpa using h
  | some n =>
    obtain ⟨hopen, hqueue, hdoc⟩ := serve_of_some h.voice hn
    refine ⟨⟨hopen, fun uri => ?_⟩, hqueue⟩
    rw [Option.map_some, Option.toList_some, DocumentNotice.about_snoc, hdoc]
    by_cases hu : call.uri = uri
    · subst hu
      rw [if_pos rfl, if_pos rfl]
      exact h.extends_round hn
    · rw [if_neg hu, if_neg (Ne.symm hu)]
      exact h.rounds uri

/-- And so is a list of calls a list of notices. -/
theorem serveAll (h : c.Speaks notes) (calls : List DocumentCall) :
    ∃ more, (c.serveAll calls).Speaks (notes ++ more) ∧
      (c.serveAll calls).queue = c.queue ++ more.map fun n => n.2.message n.1 := by
  induction calls generalizing c notes with
  | nil => exact ⟨[], by rw [List.append_nil]; exact h, by simp [Client.serveAll]⟩
  | cons call calls ih =>
    obtain ⟨h₁, hqueue⟩ := h.serve call
    obtain ⟨more, h₂, hqueue'⟩ := ih h₁
    refine ⟨((c.notice? call).map (call.uri, ·)).toList ++ more, ?_, ?_⟩
    · rw [← List.append_assoc]
      exact h₂
    · refine hqueue'.trans ?_
      rw [hqueue, List.append_assoc, List.map_append]
      cases c.notice? call <;> rfl

end Speaks

/-! ## Whoever listens -/

/-- A client with its voice that has said nothing about documents, and notes none. -/
structure IsNew (c : Client) : Prop where
  voice : c.isMute = false
  documents : c.documents = []
  quiet : replay c.queue = MarkupView.empty

theorem IsNew.speaks {c : Client} (h : c.IsNew) : c.Speaks [] := by
  refine ⟨h.voice, fun uri => ⟨[], none, rfl, ?_⟩⟩
  unfold document?
  rw [h.documents]; rfl

theorem IsNew.told {c : Client} (h : c.IsNew) : c.Told [] := by
  refine ⟨fun d hd => ?_, fun _ => ?_⟩
  · rw [h.documents] at hd
    cases hd
  · rw [List.nil_append, h.quiet]
    unfold view
    rw [h.documents]; rfl

theorem contents_serveAll {c : Client} (h : c.IsNew) (calls : List DocumentCall) :
    (c.serveAll calls).contents = DocumentCall.synced calls := by
  have hrun : ∀ (calls : List DocumentCall) (c : Client) (notes : List (Url × DocumentNotice)), c.Speaks notes →
      (c.serveAll calls).contents = calls.foldl DocumentCall.record c.contents := by
    intro calls
    induction calls with
    | nil => intro c notes _; rfl
    | cons call calls ih =>
      intro c notes hc
      rw [List.foldl_cons, ← contents_serve hc.voice]
      exact ih _ _ (hc.serve call).1
  rw [hrun calls c [] h.speaks, DocumentCall.synced]
  congr 1
  funext uri
  unfold contents document?
  rw [h.documents]; rfl

theorem Told.serveAll {c : Client} (h : c.Told []) {calls : List DocumentCall}
    (hdocs : ∀ doc, .sync doc ∈ calls → ∃ v : VirtualUri, doc.uri = v.url) : (c.serveAll calls).Told [] := by
  induction calls generalizing c with
  | nil => exact h
  | cons call calls ih =>
    refine ih ?_ fun doc hdoc => hdocs doc (List.mem_cons_of_mem _ hdoc)
    cases call with
    | sync doc => exact (h.sync (s := {}) (hdocs doc (List.mem_cons_self ..))).told
    | close uri => exact (h.close (s := {}) uri).told

theorem view_eq_some_iff {c : Client} (hc : c.IsVirtual) {key : String} {t : Text} :
    c.view key = some t ↔ ∃ uri : Url, uri.toString = key ∧ c.contents uri = some t := by
  unfold view contents
  constructor
  · intro h
    obtain ⟨d, hd, rfl⟩ := Option.map_eq_some_iff.1 h
    have hkey : d.uri.toString = key := by simpa using List.find?_some hd
    have hvirtual := hc d (List.mem_of_find?_eq_some hd)
    exact ⟨d.uri, hkey, by rw [document?_eq hc hvirtual, hkey, hd]; rfl⟩
  · rintro ⟨uri, rfl, h⟩
    obtain ⟨d, hd, rfl⟩ := Option.map_eq_some_iff.1 h
    have huri : d.uri = uri := by simpa using List.find?_some hd
    have hvirtual := hc d (List.mem_of_find?_eq_some hd)
    rw [huri] at hvirtual
    rw [← document?_eq hc hvirtual, hd]; rfl

/-- A client that `IsNew` speaks in rounds, and its listener holds what was synced. After any calls about virtual
documents, what it has said are notices that form, for each address, rounds of one opening as version
1, changes to consecutive versions and one closing, the last round possibly unfinished. The `replay` of
all that is queued gives what is `synced`: for each address synced since it was closed, the content synced
last, and nothing else. And whatever call comes next leads to at most one notice, about its own address:
to none just when it `IsIdle`, as the content is the one synced last or the document to be closed is not open. -/
theorem speaks_in_rounds (c : Client) (hnew : c.IsNew) (calls : List DocumentCall)
    (hmade : ∀ doc, DocumentCall.sync doc ∈ calls →
      ∃ host index text, VirtualDocument.make? host index doc.region text = some doc) :
    ∃ notes : List (Url × DocumentNotice),
      (c.serveAll calls).queue = c.queue ++ notes.map (fun n => n.2.message n.1) ∧
      (∀ uri, ∃ (rounds : List Round) (last : Option Round),
        DocumentNotice.about uri notes = rounds.flatMap Round.ended ++ last.elim [] Round.begun) ∧
      (∀ key t, replay (c.serveAll calls).queue key = some t ↔
        ∃ uri : Url, uri.toString = key ∧ DocumentCall.synced calls uri = some t) ∧
      ∀ call : DocumentCall, ∃ more : Option DocumentNotice,
        ((c.serveAll calls).serve call).queue =
          (c.serveAll calls).queue ++ (more.map (·.message call.uri)).toList ∧
        (more = none ↔ call.IsIdle (DocumentCall.synced calls)) := by
  have hcontents := contents_serveAll hnew calls
  obtain ⟨notes, hspeaks, hqueue⟩ := hnew.speaks.serveAll calls
  have hvirtual : ∀ doc, DocumentCall.sync doc ∈ calls → ∃ v : VirtualUri, doc.uri = v.url := by
    intro doc hdoc
    obtain ⟨host, index, text, hmake⟩ := hmade doc hdoc
    rw [VirtualDocument.make?_eq] at hmake
    obtain ⟨content, -, hdoc⟩ := Option.map_eq_some_iff.1 hmake
    exact ⟨_, congrArg VirtualDocument.uri hdoc.symm⟩
  have htold := hnew.told.serveAll hvirtual
  refine ⟨notes, hqueue, fun uri => ?_, fun key t => ?_, fun call => ?_⟩
  · obtain ⟨rounds, last, habout, -⟩ := hspeaks.rounds uri
    exact ⟨rounds, last, habout⟩
  · have hshown := htold.shown hspeaks.voice
    rw [List.nil_append] at hshown
    rw [hshown, view_eq_some_iff htold.virtual, hcontents]
  · refine ⟨(c.serveAll calls).notice? call, (hspeaks.serve call).2, ?_⟩
    rw [notice?_eq_none_iff, hcontents]

/-- A document that is synced, changed, synced once more without a change, closed twice and opened anew:
its listener holds the last content, and to sync that again is to say nothing. -/
theorem speaks_in_rounds_reopened :
    let host : Url := { scheme := ['f', 'i', 'l', 'e'], host := some [], path := ['/', 'a'] }
    let doc (c : Char) : VirtualDocument := ⟨(VirtualUri.region host 0).url, ⟨4, 5⟩, [c]⟩
    let calls : List DocumentCall :=
      [.sync (doc 'a'), .sync (doc 'b'), .sync (doc 'b'), .close (doc 'b').uri, .close (doc 'b').uri, .sync (doc 'c')]
    (({} : Client).serveAll calls).queue.length = 4 ∧
      replay (({} : Client).serveAll calls).queue (doc 'c').uri.toString = some ['c'] ∧
      ((({} : Client).serveAll calls).serve (.sync (doc 'c'))).queue = (({} : Client).serveAll calls).queue := by
  intro host doc calls
  have hslice : ∀ c ∈ ['a', 'b', 'c'], Text.slice? ['U', 'I', '!', '{', c, '}'] 4 5 = some [c] := by
    intro c hc
    simp only [List.mem_cons, List.not_mem_nil, or_false] at hc
    rcases hc with rfl | rfl | rfl <;> decide
  have hmade : ∀ d, DocumentCall.sync d ∈ calls →
      ∃ host index text, VirtualDocument.make? host index d.region text = some d := by
    intro d hd
    have hd : ∃ c ∈ ['a', 'b', 'c'], d = doc c := by
      simpa [calls, or_assoc] using hd
    obtain ⟨c, hc, rfl⟩ := hd
    exact ⟨host, 0, _, by rw [VirtualDocument.make?_eq, hslice c hc]; rfl⟩
  have hlast : DocumentCall.synced calls (doc 'c').uri = some ['c'] := by decide +kernel
  obtain ⟨notes, -, -, hheld, hnext⟩ := speaks_in_rounds {} ⟨rfl, rfl, rfl⟩ calls hmade
  refine ⟨by decide +kernel, (hheld _ _).2 ⟨_, rfl, hlast⟩, ?_⟩
  obtain ⟨more, hqueue, hidle⟩ := hnext (.sync (doc 'c'))
  rw [hqueue, hidle.2 hlast]
  exact List.append_nil _

end Client

end EmbeddedMarkup
