/-
Snippets as they are meant: each `Node` is a text, a tab stop, a placeholder that holds a snippet, or a
choice. `plainAt` reduces every snippet that is `WellFormed` to its `meaning`, at every depth and whatever
follows it; so a text with its signs escaped stands for that text.
-/
import EmbeddedMarkup.Proofs.Snippet

namespace EmbeddedMarkup.Snippet

/-! ## Snippets and their meaning -/

/-- A part of a snippet. -/
inductive Node where
  | text (s : Text)
  /-- A tab stop: a dollar and digits. -/
  | stop (digits : Text)
  /-- A tab stop in braces. -/
  | bracedStop (digits : Text)
  /-- A tab stop with a snippet to begin with. -/
  | placeholder (digits : Text) (body : List Node)
  /-- A tab stop with something else behind its digits. -/
  | choice (digits : Text) (body : Text)

/-- A text with a backslash in front of every sign. -/
def escape : Text → Text
  | [] => []
  | c :: t => if c = '\\' ∨ c = '$' ∨ c = '}' then '\\' :: c :: escape t else c :: escape t

mutual

/-- How a part of a snippet is written. -/
def Node.render : Node → Text
  | .text s => escape s
  | .stop digits => '$' :: digits
  | .bracedStop digits => '$' :: '{' :: (digits ++ ['}'])
  | .placeholder digits body => '$' :: '{' :: (digits ++ ':' :: (render body ++ ['}']))
  | .choice digits body => '$' :: '{' :: (digits ++ (body ++ ['}']))

/-- How a snippet is written. -/
def render : List Node → Text
  | [] => []
  | node :: nodes => node.render ++ render nodes

end

mutual

/-- What a part of a snippet stands for before anything is filled in. -/
def Node.meaning : Node → Text
  | .text s => s
  | .stop _ => []
  | .bracedStop _ => []
  | .placeholder _ body => meaning body
  | .choice _ _ => []

/-- What a snippet stands for before anything is filled in. -/
def meaning : List Node → Text
  | [] => []
  | node :: nodes => node.meaning ++ meaning nodes

end

/-- The snippets that are written by the rules. Behind a tab stop without braces no text may go on with a
digit, and a choice may neither hold a closing brace nor begin like something else. -/
inductive WellFormed : List Node → Prop
  | nil : WellFormed []
  | text {nodes : List Node} (s : Text) : WellFormed nodes → WellFormed (.text s :: nodes)
  | stop {nodes : List Node} {digits : Text} : digits ≠ [] → (∀ c ∈ digits, c.isDigit = true) →
      BeginsNoDigit (render nodes) → WellFormed nodes → WellFormed (.stop digits :: nodes)
  | bracedStop {nodes : List Node} {digits : Text} : (∀ c ∈ digits, c.isDigit = true) →
      WellFormed nodes → WellFormed (.bracedStop digits :: nodes)
  | placeholder {nodes body : List Node} {digits : Text} : (∀ c ∈ digits, c.isDigit = true) →
      WellFormed body → WellFormed nodes → WellFormed (.placeholder digits body :: nodes)
  | choice {nodes : List Node} {digits body : Text} {c : Char} : (∀ c ∈ digits, c.isDigit = true) →
      c.isDigit = false → c ≠ ':' → '}' ∉ c :: body → WellFormed nodes →
      WellFormed (.choice digits (c :: body) :: nodes)

/-! ## Pieces -/

theorem piece_of_brace {digits rest : Text} (hdigits : ∀ c ∈ digits, c.isDigit = true) (hrest : BeginsNoDigit rest) :
    piece '$' ('{' :: (digits ++ rest)) = braced rest := by
  show braced ((digits ++ rest).dropWhile Char.isDigit) = _
  rw [dropWhile_digits hdigits hrest]

theorem beginsNoDigit_nil : BeginsNoDigit [] :=
  fun _ h => by cases h

theorem beginsNoDigit_cons {c : Char} (hc : c.isDigit = false) (t : Text) : BeginsNoDigit (c :: t) := by
  intro c' h
  cases h
  exact hc

theorem BeginsNoDigit.append {a b : Text} (ha : BeginsNoDigit a) (hb : BeginsNoDigit b) : BeginsNoDigit (a ++ b) := by
  cases a with
  | nil => exact hb
  | cons c a => exact beginsNoDigit_cons (ha c rfl) _

theorem afterBrace_append {body : Text} (h : '}' ∉ body) (rest : Text) : afterBrace (body ++ '}' :: rest) = rest := by
  unfold afterBrace
  rw [List.dropWhile_append_of_pos, List.dropWhile_cons_of_neg (by simp), List.drop_one, List.tail_cons]
  intro c hc
  simpa using fun he : c = '}' => h (he ▸ hc)

/-- `plainAt` takes what `escape` gives back to the text, at every depth. -/
theorem plainAt_escape (depth : Nat) (s rest : Text) :
    plainAt depth (escape s ++ rest) = s ++ plainAt depth rest := by
  induction s with
  | nil => rfl
  | cons c s ih =>
    rw [escape]
    split
    · rename_i hc
      have hpiece : piece '\\' (c :: (escape s ++ rest)) = (.text c, escape s ++ rest) := by
        show (if isEscapable c then _ else _) = _
        rw [if_pos (by rcases hc with rfl | rfl | rfl <;> rfl)]
      rw [List.cons_append, List.cons_append, plainAt_of_text hpiece, ih, List.cons_append]
    · rename_i hc
      rw [not_or, not_or] at hc
      have hpiece : piece c (escape s ++ rest) = (.text c, escape s ++ rest) := by
        rw [piece, if_neg hc.1, if_neg hc.2.2, if_neg hc.2.1]
      rw [List.cons_append, plainAt_of_text hpiece, ih, List.cons_append]

/-- `plainAt` reduces a snippet to its `meaning` in front of whatever follows, unless that goes on with a digit. -/
theorem plainAt_render {nodes : List Node} (h : WellFormed nodes) (depth : Nat) {rest : Text}
    (hrest : BeginsNoDigit rest) : plainAt depth (render nodes ++ rest) = meaning nodes ++ plainAt depth rest := by
  induction h generalizing depth rest with
  | nil => rfl
  | text s _ ih =>
    rw [render, Node.render, List.append_assoc, plainAt_escape, ih depth hrest, meaning, Node.meaning,
      List.append_assoc]
  | stop hne hdigits hnext _ ih =>
    rw [render, Node.render, List.append_assoc, List.cons_append,
      plainAt_of_hole (piece_of_digits hne hdigits (hnext.append hrest)), ih depth hrest]
    rfl
  | @bracedStop nodes digits hdigits _ ih =>
    have hpiece : piece '$' ('{' :: (digits ++ '}' :: (render nodes ++ rest))) = (.hole, render nodes ++ rest) :=
      piece_of_brace hdigits (beginsNoDigit_cons rfl _)
    rw [render, Node.render]
    simp only [List.cons_append, List.append_assoc, List.nil_append]
    rw [plainAt_of_hole hpiece, ih depth hrest]
    rfl
  | @placeholder nodes body digits hdigits _ _ ihbody ih =>
    -- the body is read one placeholder deeper, up to the brace that leads back
    have hpiece : piece '$' ('{' :: (digits ++ ':' :: (render body ++ '}' :: (render nodes ++ rest)))) =
        (.opening, render body ++ '}' :: (render nodes ++ rest)) :=
      piece_of_brace hdigits (beginsNoDigit_cons rfl _)
    rw [render, Node.render]
    simp only [List.cons_append, List.append_assoc, List.nil_append]
    rw [plainAt_of_opening hpiece, ihbody (depth + 1) (beginsNoDigit_cons rfl _), plainAt_succ_brace, ih depth hrest,
      meaning, Node.meaning, List.append_assoc]
  | @choice nodes digits body c hdigits hc hcolon hbrace _ ih =>
    rw [List.mem_cons, not_or] at hbrace
    have hpiece : piece '$' ('{' :: (digits ++ c :: (body ++ '}' :: (render nodes ++ rest)))) =
        (.hole, render nodes ++ rest) := by
      rw [piece_of_brace hdigits (beginsNoDigit_cons hc _), braced, if_neg hcolon, if_neg (Ne.symm hbrace.1),
        afterBrace_append hbrace.2]
    rw [render, Node.render]
    simp only [List.cons_append, List.append_assoc, List.nil_append]
    rw [plainAt_of_hole hpiece, ih depth hrest]
    rfl

/-- The `plain` text of what `render` gives is the `meaning` of the snippet: the texts in it, unescaped, and the
texts in its placeholders to any depth, in order, and nothing for tab stops and choices. So what
`escape` gives is reduced to the text. -/
theorem rendered_means_itself :
    (∀ nodes, WellFormed nodes → plain (render nodes) = meaning nodes) ∧ ∀ s : Text, plain (escape s) = s := by
  have hend : plainAt 0 [] = [] := by rw [plainAt]
  constructor
  · intro nodes h
    have := plainAt_render h 0 beginsNoDigit_nil
    rwa [List.append_nil, hend, List.append_nil] at this
  · intro s
    have := plainAt_escape 0 s []
    rwa [List.append_nil, hend, List.append_nil] at this

/-- Signs that are escaped at two depths, a tab stop at the end of a placeholder, and one in front of text. -/
theorem rendered_means_itself_nested :
    let nodes : List Node :=
      [.text ['$', '1'], .placeholder ['2'] [.text ['}'], .placeholder ['3', '4'] [.text ['\\'], .stop ['5']]],
        .choice ['6'] ['|', 'x', '|'], .bracedStop ['7'], .stop ['0'], .text ['!', '8']]
    WellFormed nodes ∧
      render nodes = ['\\', '$', '1', '$', '{', '2', ':', '\\', '}', '$', '{', '3', '4', ':', '\\', '\\', '$', '5', '}',
        '}', '$', '{', '6', '|', 'x', '|', '}', '$', '{', '7', '}', '$', '0', '!', '8'] ∧
      plain (render nodes) = ['$', '1', '}', '\\', '!', '8'] ∧
      plain (escape ['$', '{', '2', ':', '\\', '}']) = ['$', '{', '2', ':', '\\', '}'] := by
  intro nodes
  have hinner : WellFormed [.text ['\\'], .stop ['5']] :=
    .text _ (.stop (by decide) (List.all_eq_true.1 rfl) beginsNoDigit_nil .nil)
  have hend : WellFormed [.stop ['0'], .text ['!', '8']] :=
    .stop (by decide) (List.all_eq_true.1 rfl) (beginsNoDigit_cons rfl _) (.text _ .nil)
  have hafter : WellFormed [.choice ['6'] ['|', 'x', '|'], .bracedStop ['7'], .stop ['0'], .text ['!', '8']] :=
    .choice (List.all_eq_true.1 rfl) rfl (by decide) (by decide) (.bracedStop (List.all_eq_true.1 rfl) hend)
  have hnodes : WellFormed nodes :=
    .text _ (.placeholder (List.all_eq_true.1 rfl)
      (.text _ (.placeholder (List.all_eq_true.1 rfl) hinner .nil)) hafter)
  obtain ⟨hplain, hescape⟩ := rendered_means_itself
  exact ⟨hnodes, rfl, hplain nodes hnodes, hescape _⟩

end EmbeddedMarkup.Snippet
