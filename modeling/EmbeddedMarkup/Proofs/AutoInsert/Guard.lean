/-
The guard `alreadyTyped` against a closing tag that was typed already. A suggestion is dropped when the
typed text, trimmed, ends with what the suggestion holds from its third byte on, which is `guarded`; what
is inserted otherwise is its plain text, `Snippet.plain`. The two agree on a tab stop of one digit in
front of plain text. Where they do not, there is always something that can be typed on which the guard is
wrong: it drops a tag that is not there, or lets one through that is.
-/
import EmbeddedMarkup.Proofs.Session.Routing
import EmbeddedMarkup.Proofs.Snippet
import EmbeddedMarkup.Proofs.Text.Blank

namespace EmbeddedMarkup

namespace AutoInsert

/-! ## The guard -/

/-- What the guard looks for: the suggestion from its third byte on, if a character begins there. -/
def guarded (suggestion : Text) : Text :=
  ((Text.splitAt? suggestion 2).map (·.2)).getD []

theorem alreadyTyped_iff {trigger : Trigger} {suggestion : Text} :
    alreadyTyped trigger suggestion = true ↔ guarded suggestion <:+ Text.trim trigger.typed :=
  List.isSuffixOf_iff_suffix

theorem guarded_append {a : Text} (h : Text.byteLength a = 2) (b : Text) : guarded (a ++ b) = b := by
  unfold guarded
  rw [← h, Text.splitAt?_append]
  rfl

theorem guarded_tabStop {digit : Char} (hdigit : digit.isDigit = true) (rest : Text) :
    guarded ('$' :: digit :: rest) = rest := by
  refine guarded_append (a := ['$', digit]) ?_ rest
  have hsize : digit.utf8Size = 1 := by
    rw [Char.utf8Size_eq_one_iff]
    rw [Char.isDigit, Bool.and_eq_true, decide_eq_true_eq, decide_eq_true_eq] at hdigit
    exact UInt32.le_trans hdigit.2 (by decide)
  rw [Text.byteLength_cons, Text.byteLength_cons, hsize]
  rfl

/-! ## Insertions -/

section Resolve

variable {settings : AutoInsertSettings} {uri : Url}

theorem isSome_inquire? {s : Session} (hs : s.WF) {d : HostDocument} {p : Position} (hd : s.get? uri = some d)
    (hp : (d.regionAt? p).isSome = true) (typed : Text) :
    (inquire? s uri d.version ⟨.close, p, typed⟩).isSome = true := by
  obtain ⟨i, o, hi, -⟩ := Session.exists_inquiry hs (Session.not_misses_of_regionAt? hd hp)
  unfold inquire?
  rw [if_pos (Session.isCurrent_iff.2 ⟨d, hd, rfl⟩), hi]
  rfl

/-- A suggestion for a place in a region is dropped when the typed text ends with `guarded`, and inserted as
plain text otherwise. -/
theorem result_of_suggestion {s : Session} (hs : s.WF) {d : HostDocument} {p : Position}
    {steps : List Session.Step} {suggestion : String} (hd : s.get? uri = some d)
    (hp : (d.regionAt? p).isSome = true) (hstays : (s.run steps).isCurrent uri d.version = true)
    (henabled : settings.autoClose = true) (hne : suggestion.isEmpty = false) (typed : Text) :
    (resolve s settings uri d.version ⟨.close, p, typed⟩ steps (some suggestion)).result =
      if guarded suggestion.toList <:+ Text.trim typed then none
      else some ⟨uri, d.version, p, Snippet.plain suggestion.toList⟩ := by
  rw [result_resolve (isSome_inquire? hs hd hp typed) hstays hne, conclude?_some]
  by_cases h : guarded suggestion.toList <:+ Text.trim typed
  · rw [if_pos h, if_neg]
    rintro ⟨-, hnew, -⟩
    exact hnew ⟨rfl, alreadyTyped_iff.2 h⟩
  · rw [if_neg h, if_pos]
    exact ⟨henabled, fun hold => h (alreadyTyped_iff.1 hold.2), hstays⟩

end Resolve

/-- When the guard is right. Let a suggestion come for a trigger in a region, of a kind that is switched on,
and let the document be in the version of the trigger before and after. The suggestion is dropped when the
typed text, trimmed, ends with `guarded`, and inserted as `Snippet.plain` otherwise. That this
is so just when the typed text ends with the plain text, whatever was typed, holds of a suggestion if the
guard looks for its plain text, or if neither can end a trimmed text, and of no other. It holds of every
tab stop of one digit in front of text without dollars and backslashes. -/
theorem guard_right_iff (history : List Session.Step) (settings : AutoInsertSettings) (uri : Url) (d : HostDocument)
    (p : Position) (steps : List Session.Step) (suggestion : String)
    (hd : (Session.run {} history).get? uri = some d) (hp : (d.regionAt? p).isSome = true)
    (hstays : ((Session.run {} history).run steps).isCurrent uri d.version = true)
    (henabled : settings.autoClose = true) (hne : suggestion.isEmpty = false) :
    let s := Session.run {} history
    let result typed := (resolve s settings uri d.version ⟨.close, p, typed⟩ steps (some suggestion)).result
    let plain := Snippet.plain suggestion.toList
    let sought := guarded suggestion.toList
    (∀ typed, result typed = if sought <:+ Text.trim typed then none else some ⟨uri, d.version, p, plain⟩) ∧
    ((∀ typed, (result typed = none ↔ plain <:+ Text.trim typed) ∧
        (¬ plain <:+ Text.trim typed → result typed = some ⟨uri, d.version, p, plain⟩)) ↔
      sought = plain ∨ (Text.EndsBlank sought ∧ Text.EndsBlank plain)) ∧
    ∀ digit rest, suggestion.toList = '$' :: digit :: rest → digit.isDigit = true →
      (∀ c ∈ rest, c ≠ '$' ∧ c ≠ '\\') → (∀ c, rest.head? = some c → c.isDigit = false) → sought = plain := by
  intro s result plain sought
  have hresult : ∀ typed, result typed =
      if sought <:+ Text.trim typed then none else some ⟨uri, d.version, p, plain⟩ :=
    result_of_suggestion (Session.run_wf history) hd hp hstays henabled hne
  have hnone : ∀ typed, result typed = none ↔ sought <:+ Text.trim typed := by
    intro typed
    rw [hresult]
    split <;> simp [*]
  refine ⟨hresult, ?_, ?_⟩
  · rw [← Text.suffix_trim_iff]
    constructor
    · intro h typed
      rw [← hnone, (h typed).1]
    · intro h typed
      rw [hnone]
      refine ⟨h typed, fun hplain => ?_⟩
      rw [hresult, if_neg fun hsought => hplain ((h typed).1 hsought)]
  · intro digit rest hsuggestion hdigit hrest hhead
    simp only [sought, plain, hsuggestion]
    rw [guarded_tabStop hdigit, Snippet.plain_tabStop hdigit hrest hhead]

/-- Behind a final tab stop the guard drops a tag that ends what was pasted, with a blank line behind it, and
inserts it behind the opening tag alone. Meanwhile another document is opened. -/
theorem guard_right_iff_tab_stop :
    let uri : Url := { scheme := ['f', 'i', 'l', 'e'], host := some [], path := ['/', 'a'] }
    let other : Url := { scheme := ['f', 'i', 'l', 'e'], host := some [], path := ['/', 'b'] }
    let s := Session.run {} [.put uri ['U', 'I', '!', '{', '<', 'p', '>', '}'] 1]
    let d := HostDocument.make uri ['U', 'I', '!', '{', '<', 'p', '>', '}'] 1
    let steps : List Session.Step := [.put other [] 4]
    let result typed := (resolve s {} uri 1 ⟨.close, ⟨0, 7⟩, typed⟩ steps (some "$0</p>")).result
    let tag : Text := ['<', '/', 'p', '>']
    (s.get? uri = some d ∧ (d.regionAt? ⟨0, 7⟩).isSome = true ∧ (s.run steps).isCurrent uri 1 = true) ∧
      (∀ typed, (result typed = none ↔ tag <:+ Text.trim typed) ∧
        (¬ tag <:+ Text.trim typed → result typed = some ⟨uri, 1, ⟨0, 7⟩, tag⟩)) ∧
      result (['<', 'p', '>'] ++ tag ++ ['\n']) = none ∧ result ['<', 'p', '>'] = some ⟨uri, 1, ⟨0, 7⟩, tag⟩ := by
  intro uri other s d steps result tag
  have hd : s.get? uri = some d := (Session.get?_put ..).trans (if_pos rfl)
  have hp : (d.regionAt? ⟨0, 7⟩).isSome = true := by decide +kernel
  have hstays : (s.run steps).isCurrent uri 1 = true := by decide +kernel
  obtain ⟨-, hiff, hstop⟩ := guard_right_iff [.put uri ['U', 'I', '!', '{', '<', 'p', '>', '}'] 1] {} uri d ⟨0, 7⟩ steps
    "$0</p>" hd hp hstays rfl (by decide)
  have hplain : Snippet.plain "$0</p>".toList = tag := by decide +kernel
  have hright := hiff.2 (.inl (hstop '0' tag (by decide) (by decide) (by simp [tag]) (by simp [tag])))
  rw [hplain] at hright
  exact ⟨⟨hd, hp, hstays⟩, hright, ((hright _).1).2 (by decide +kernel), (hright _).2 (by decide +kernel)⟩

/-- The guard is wrong both ways: a tag of two characters is dropped whatever was typed, and behind a tab stop in
braces a tag is doubled. -/
theorem guard_misjudges_tags :
    let uri : Url := { scheme := ['f', 'i', 'l', 'e'], host := some [], path := ['/', 'a'] }
    let s := Session.run {} [.put uri ['U', 'I', '!', '{', '<', 'p', '>', '<', '/', '}'] 1]
    let result (suggestion : String) (typed : Text) :=
      (resolve s {} uri 1 ⟨.close, ⟨0, 9⟩, typed⟩ [] (some suggestion)).result
    (result "p>" ['/'] = none ∧ ¬ Snippet.plain "p>".toList <:+ Text.trim ['/']) ∧
    result "$\x7b0\x7d</p>" ['<', 'p', '>', '<', '/', 'p', '>'] = some ⟨uri, 1, ⟨0, 9⟩, ['<', '/', 'p', '>']⟩ ∧
      Snippet.plain "$\x7b0\x7d</p>".toList <:+ Text.trim ['<', 'p', '>', '<', '/', 'p', '>'] := by
  decide +kernel

end AutoInsert

end EmbeddedMarkup
