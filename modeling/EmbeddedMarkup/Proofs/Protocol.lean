/-
The parts of messages are read back from their JSON: `Position`, `Range` and `TextEdit` by the readers that
the server has for them, and `Outgoing`, which only the markup server reads, by `Outgoing.ofJson?`. The
parameters of a `Query` name the document and the position that it is about.
-/
import EmbeddedMarkup.Markup.Message
import EmbeddedMarkup.Query

namespace EmbeddedMarkup

/-! ## Edits -/

/-- Whether both parts of a position are unsigned 32-bit integers. -/
def Position.Fits32 (p : Position) : Prop :=
  p.line < UInt32.size ∧ p.character < UInt32.size

theorem Json.nat32?_nat {n : Nat} (h : n < UInt32.size) : (Json.nat n).nat32? = some n := by
  have hle : (0 : Int) ≤ n ∧ (n : Int) ≤ 0xFFFFFFFF := by
    unfold UInt32.size at h
    omega
  show ((if _ then some (n : Int) else none).map Int.toNat : Option Nat) = some n
  rw [if_pos hle]; rfl

theorem Json.eq_of_nat32?_nat {n m : Nat} (h : (Json.nat n).nat32? = some m) : n = m := by
  have h : ((if (0 : Int) ≤ n ∧ (n : Int) ≤ 0xFFFFFFFF then some (n : Int) else none).map Int.toNat) = some m := h
  split at h
  · exact Option.some.inj h
  · cases h

theorem Position.ofJson?_toJson {p : Position} (h : p.Fits32) : ofJson? p.toJson = some p := by
  show (do return ⟨← (Json.nat p.line).nat32?, ← (Json.nat p.character).nat32?⟩ : Option Position) = some p
  rw [Json.nat32?_nat h.1, Json.nat32?_nat h.2]; rfl

theorem Range.ofJson?_toJson {r : Range} (h : r.start.Fits32) (h' : r.stop.Fits32) : ofJson? r.toJson = some r := by
  show (do return ⟨← Position.ofJson? r.start.toJson, ← Position.ofJson? r.stop.toJson⟩ : Option Range) = some r
  rw [Position.ofJson?_toJson h, Position.ofJson?_toJson h']; rfl

/-- `ofJson?` reads an edit back from its JSON. -/
theorem TextEdit.ofJson?_toJson {e : TextEdit} (h : e.range.start.Fits32) (h' : e.range.stop.Fits32) :
    ofJson? e.toJson = some e := by
  show (do return ⟨← Range.ofJson? e.range.toJson, ← (Json.str e.newText).str?⟩ : Option TextEdit) = some e
  rw [Range.ofJson?_toJson h h']; rfl

theorem Position.toJson_inj {p q : Position} (h : p.toJson = q.toJson) : p = q := by
  have h : (p.line : Int) = q.line ∧ (p.character : Int) = q.character := by
    simpa [toJson, Json.nat, Json.int] using h
  cases p
  cases q
  rw [mk.injEq]
  exact ⟨Int.ofNat.inj h.1, Int.ofNat.inj h.2⟩

theorem Range.toJson_inj {r s : Range} (h : r.toJson = s.toJson) : r = s := by
  have h : r.start.toJson = s.start.toJson ∧ r.stop.toJson = s.stop.toJson := by simpa [toJson] using h
  cases r
  cases s
  rw [mk.injEq]
  exact ⟨Position.toJson_inj h.1, Position.toJson_inj h.2⟩

/-- Equal JSON is the same edit, however large its positions are. -/
theorem TextEdit.toJson_inj {e e' : TextEdit} (h : e.toJson = e'.toJson) : e = e' := by
  have h : e.range.toJson = e'.range.toJson ∧ e.newText = e'.newText := by simpa [toJson] using h
  cases e
  cases e'
  rw [mk.injEq]
  exact ⟨Range.toJson_inj h.1, h.2⟩

/-! ## Messages to the markup server -/

/-- The message that `j` is, as the markup server reads it: with an id and a method a request, with a method
alone a notification, and with an id alone an answer. -/
def Outgoing.ofJson? (j : Json) : Option Outgoing :=
  match j.get? "method", j.get? "id" with
  | some (.str method), some (.num (.int (.ofNat id))) => (j.get? "params").map (request id method)
  | some (.str method), none => (j.get? "params").map (notification method)
  | none, some id => (j.get? "result").map (answer id)
  | _, _ => none

/-- `ofJson?` reads the id, the method and the parameters or the result of a message back from its JSON. -/
theorem Outgoing.ofJson?_toJson (m : Outgoing) : ofJson? m.toJson = some m := by
  cases m <;> rfl

/-! ## Queries -/

/-- Whatever is asked, the `params` name the document and the position. -/
theorem Query.get?_params (q : Query) (uri : Url) (p : Position) :
    (q.params uri p).get? "textDocument" = some (.obj [("uri", .str uri.toString)]) ∧
      (q.params uri p).get? "position" = some (.obj [("line", .nat p.line), ("character", .nat p.character)]) := by
  rcases q with _ | ⟨_ | _⟩ | _ | _ | _ <;> exact ⟨rfl, rfl⟩

end EmbeddedMarkup
