/-
Virtual URIs are URLs in normal form already: `toUrl?` reads the text of a `VirtualUri` as its `url`, with its
scheme, its language as the host and its path, and that URL is written as the same text again. So different
virtual URIs are different texts on the way to a markup server.
-/
import EmbeddedMarkup.Proofs.Percent
import EmbeddedMarkup.VirtualUri
import Mathlib.Data.List.TakeWhile

namespace EmbeddedMarkup

namespace Url

/-! ## Reading what needs no mending -/

theorem cleaned_eq_self {t : Text} (h : ∀ c ∈ t, 0x20 < c.toNat) : cleaned t = t := by
  have hdrop : ∀ l : Text, (∀ c ∈ l, 0x20 < c.toNat) → l.dropWhile (fun c => decide (c.toNat ≤ 0x20)) = l := by
    intro l hl
    cases l with
    | nil => rfl
    | cons c l =>
      have := hl c (List.mem_cons_self ..)
      rw [List.dropWhile_cons_of_neg]
      simpa using this
  unfold cleaned
  simp only
  rw [hdrop t h, hdrop t.reverse fun c hc => h c (List.mem_reverse.1 hc), List.reverse_reverse, List.filter_eq_self]
  intro c hc
  have := h c hc
  have ht : c ≠ '\t' := by rintro rfl; revert this; decide
  have hn : c ≠ '\n' := by rintro rfl; revert this; decide
  have hr : c ≠ '\r' := by rintro rfl; revert this; decide
  simp [ht, hn, hr]

theorem splitFirst_of_not_mem {sep : Char} {t : Text} (h : sep ∉ t) : splitFirst sep t = (t, none) := by
  have : t.dropWhile (fun c => decide (c ≠ sep)) = [] := by
    rw [List.dropWhile_eq_nil_iff]
    intro c hc
    exact decide_eq_true fun he => h (he ▸ hc)
  unfold splitFirst
  rw [this]

/-! ## Segments -/

theorem splitSegments_ne_nil (k : SchemeKind) (t : Text) : splitSegments k t ≠ [] := by
  cases t with
  | nil => exact List.cons_ne_nil _ _
  | cons c t =>
    unfold splitSegments
    split
    · exact List.cons_ne_nil _ _
    · split <;> exact List.cons_ne_nil _ _

/-- `joinSegments` takes the segments of a path back to the path. -/
theorem joinSegments_splitSegments (t : Text) : joinSegments (splitSegments .other t) = '/' :: t := by
  induction t with
  | nil => rfl
  | cons c t ih =>
    have hc : SchemeKind.other.isSlash c = decide (c = '/') := by simp [SchemeKind.isSlash, SchemeKind.isSpecial]
    unfold splitSegments
    rw [hc]
    split
    · rename_i h
      rw [decide_eq_true_eq] at h
      subst h
      rw [← ih]; rfl
    · split
      · rename_i h
        exact absurd h (splitSegments_ne_nil _ _)
      · rename_i part parts h
        rw [h] at ih
        simp only [joinSegments, List.flatMap_cons, List.cons_append, List.cons.injEq, true_and] at ih ⊢
        exact ih

theorem splitSegments_append {k : SchemeKind} {a b : Text} (h : ∀ c ∈ a, k.isSlash c = false) {part : Text}
    {parts : List Text} (hb : splitSegments k b = part :: parts) :
    splitSegments k (a ++ b) = (a ++ part) :: parts := by
  induction a with
  | nil => exact hb
  | cons c a ih =>
    have hc := h c (List.mem_cons_self ..)
    rw [List.cons_append, splitSegments, hc, ih fun c' hc' => h c' (List.mem_cons_of_mem _ hc')]
    rfl

/-- A segment with a character that no dot segment has. -/
def IsNamed (segment : Text) : Prop :=
  ∃ c ∈ segment, c ∉ ['.', '%', '2', 'e', 'E']

theorem mem_undot {segment : Text} {c : Char} (h : c ∈ segment) (hc : c ∉ ['.', '%', '2', 'e', 'E']) :
    c ∈ undot segment := by
  induction segment using undot.induct with
  | case1 e rest he ih =>
    rw [undot, if_pos he]
    simp only [List.mem_cons] at h hc
    rcases h with rfl | rfl | rfl | h
    · simp at hc
    · simp at hc
    · rw [Bool.or_eq_true, decide_eq_true_eq, decide_eq_true_eq] at he
      rcases he with rfl | rfl <;> simp at hc
    · exact List.mem_cons_of_mem _ (ih h)
  | case2 e rest he => rwa [undot, if_neg he]
  | case3 rest ih =>
    rw [undot]
    rcases List.mem_cons.1 h with rfl | h
    · simp at hc
    · exact List.mem_cons_of_mem _ (ih h)
  | case4 segment h1 h2 => rwa [undot] <;> assumption

theorem IsNamed.undot_ne {segment dots : Text} (h : IsNamed segment) (hd : ∀ c ∈ dots, c = '.') :
    (undot segment == dots) = false := by
  obtain ⟨c, hc, hn⟩ := h
  rw [beq_eq_false_iff_ne]
  rintro rfl
  have := hd c (mem_undot hc hn)
  subst this
  simp at hn

/-- `addSegments` appends segments that are all `IsNamed` as they are. -/
theorem addSegments_of_named {path segments : List Text} (h : ∀ s ∈ segments, IsNamed s) :
    addSegments .other path segments = path ++ segments := by
  induction segments generalizing path with
  | nil => rw [addSegments, List.append_nil]
  | cons s rest ih =>
    have hs := h s (List.mem_cons_self ..)
    have h1 : isSingleDot s = false := hs.undot_ne (by simp)
    have h2 : isDoubleDot s = false := hs.undot_ne (by simp)
    rw [addSegments, h1, h2]
    simp only [Bool.false_eq_true, if_false]
    rw [if_neg (by simp), ih fun s' hs' => h s' (List.mem_cons_of_mem _ hs'), List.append_assoc, List.singleton_append]

end Url

namespace VirtualUri

/-! ## The characters of an address -/

/-- What a character of the path of a virtual URI is like. -/
theorem plain_spec {c : Char} (h : c = '/' ∨ Percent.IsCoded c) :
    0x20 < c.toNat ∧ c ≠ '#' ∧ c ≠ '?' ∧ Percent.IsKept Url.keepInPath c := by
  have hc : c.toNat < 0x80 := by
    rcases h with rfl | rfl | h
    · decide
    · decide
    · exact h.1
  revert h
  refine Percent.of_ascii hc ?_
  decide +kernel

theorem isCoded_of_isDigit {c : Char} (h : c.isDigit = true) : Percent.IsCoded c := by
  have hc : c.toNat < 0x80 := by
    simp only [Char.isDigit, Bool.and_eq_true, decide_eq_true_eq, ge_iff_le, UInt32.le_iff_toNat_le] at h
    have : c.val.toNat = c.toNat := rfl
    have h9 : ('9' : Char).val.toNat = 57 := rfl
    omega
  revert h
  refine Percent.of_ascii hc ?_
  decide +kernel

theorem isCoded_of_mem_digits {n : Nat} {c : Char} (h : c ∈ Decimal.digits n) : Percent.IsCoded c :=
  isCoded_of_isDigit (Decimal.isDigit_of_mem_digits h)

theorem isCoded_of_mem_suffix {c : Char} (h : c ∈ suffix) : Percent.IsCoded c := by
  have hall : suffix.all (fun c => decide (Percent.IsCoded c)) = true := by decide
  exact of_decide_eq_true (List.all_eq_true.1 hall c h)

theorem isCoded_append_suffix {t : Text} (h : ∀ c ∈ t, Percent.IsCoded c) : ∀ c ∈ t ++ suffix, Percent.IsCoded c := by
  intro c hc
  rcases List.mem_append.1 hc with hc | hc
  · exact h c hc
  · exact isCoded_of_mem_suffix hc

theorem plain_of_mem {v : VirtualUri} {c : Char} (h : c ∈ v.place ++ suffix) : c = '/' ∨ Percent.IsCoded c := by
  cases v with
  | masked host => exact .inr (isCoded_append_suffix (fun _ => Percent.isCoded_of_mem_component) c h)
  | region host index =>
    rw [place, List.append_assoc, List.cons_append, List.mem_append, List.mem_cons] at h
    rcases h with h | h | h
    · exact .inr (Percent.isCoded_of_mem_component h)
    · exact .inl h
    · exact .inr (isCoded_append_suffix (fun _ => isCoded_of_mem_digits) c h)

/-! ## The segments of an address -/

/-- The segments of the path of an address. -/
def segments : VirtualUri → List Text
  | masked host => [Percent.component host.toText ++ suffix]
  | region host index => [Percent.component host.toText, Decimal.digits index ++ suffix]

theorem isSlash_of_isCoded {c : Char} (h : Percent.IsCoded c) : Url.SchemeKind.other.isSlash c = false := by
  have hc : c ≠ '/' := by rintro rfl; revert h; decide
  simp [Url.SchemeKind.isSlash, Url.SchemeKind.isSpecial, hc]

theorem splitSegments_of_isCoded {t : Text} (h : ∀ c ∈ t, Percent.IsCoded c) :
    Url.splitSegments .other t = [t] := by
  have := Url.splitSegments_append (fun c hc => isSlash_of_isCoded (h c hc)) (b := []) rfl
  rwa [List.append_nil] at this

theorem splitSegments_place (v : VirtualUri) : Url.splitSegments .other (v.place ++ suffix) = v.segments := by
  cases v with
  | masked host => exact splitSegments_of_isCoded (isCoded_append_suffix fun _ => Percent.isCoded_of_mem_component)
  | region host index =>
    -- the slash in front of the index is the only one, since a coded host has none
    have htail : Url.splitSegments .other ('/' :: (Decimal.digits index ++ suffix)) =
        [] :: [Decimal.digits index ++ suffix] := by
      rw [Url.splitSegments, splitSegments_of_isCoded (isCoded_append_suffix fun _ => isCoded_of_mem_digits)]
      rfl
    have := Url.splitSegments_append
      (fun c hc => isSlash_of_isCoded (Percent.isCoded_of_mem_component (t := host.toText) hc)) htail
    rw [List.append_nil] at this
    rw [place, List.append_assoc, List.cons_append]
    exact this

/-- The colon behind the scheme keeps a coded host from being taken for dots. -/
theorem isNamed_component (host : Url) : Url.IsNamed (Percent.component host.toText) := by
  refine ⟨'3', Percent.mem_component (c := ':') ?_ (by decide), by decide⟩
  simp [Url.toText]

theorem isNamed_append_suffix (t : Text) : Url.IsNamed (t ++ suffix) :=
  ⟨'h', List.mem_append_right _ (by decide), by decide⟩

theorem isNamed_segments (v : VirtualUri) : ∀ s ∈ v.segments, Url.IsNamed s := by
  intro s hs
  cases v with
  | masked host =>
    rw [segments, List.mem_singleton] at hs
    subst hs
    exact isNamed_append_suffix _
  | region host index =>
    simp only [segments, List.mem_cons, List.not_mem_nil, or_false] at hs
    rcases hs with rfl | rfl
    · exact isNamed_component host
    · exact isNamed_append_suffix _

theorem isCoded_segments (v : VirtualUri) : ∀ s ∈ v.segments, ∀ c ∈ s, Percent.IsCoded c := by
  intro s hs
  cases v with
  | masked host =>
    rw [segments, List.mem_singleton] at hs
    subst hs
    exact isCoded_append_suffix fun _ => Percent.isCoded_of_mem_component
  | region host index =>
    simp only [segments, List.mem_cons, List.not_mem_nil, or_false] at hs
    rcases hs with rfl | rfl
    · exact fun _ => Percent.isCoded_of_mem_component
    · exact isCoded_append_suffix fun _ => isCoded_of_mem_digits

/-! ## Reading an address -/

theorem readPath_place (v : VirtualUri) :
    Url.readPath .other ('/' :: (v.place ++ suffix)) = '/' :: (v.place ++ suffix) := by
  have hself : v.segments.map (Percent.encode Url.keepInPath) = v.segments := by
    rw [List.map_congr_left (g := id), List.map_id]
    intro s hs
    exact Percent.encode_eq_self fun c hc => (plain_spec (.inr (v.isCoded_segments s hs c hc))).2.2.2
  have hread : Url.readSegments .other (v.place ++ suffix) = v.segments := by
    rw [Url.readSegments, splitSegments_place, hself, Url.addSegments_of_named v.isNamed_segments, List.nil_append]
  have hslash : Url.dropSlash .other ('/' :: (v.place ++ suffix)) = v.place ++ suffix := rfl
  rw [Url.readPath, hslash, hread, ← splitSegments_place, Url.joinSegments_splitSegments]
  rfl

/-- The URL of an address. -/
def url (v : VirtualUri) : Url :=
  { scheme, host := some language, path := '/' :: (v.place ++ suffix) }

theorem url_toText (v : VirtualUri) : v.url.toText = v.toText := by
  simp [url, toText, Url.toText, Url.authority, Url.userinfo]

theorem readNetwork_place (v : VirtualUri) :
    Url.readNetwork scheme (language ++ '/' :: (v.place ++ suffix)) false = .ok v.url := by
  have hkind : Url.schemeKind scheme = .other := by decide
  -- the authority ends at the first slash, and is read by evaluation
  have htake : (language ++ '/' :: (v.place ++ suffix)).takeWhile
      (fun c => !Url.SchemeKind.other.endsAuthority c) = language := by
    rw [List.takeWhile_append_of_pos (List.all_eq_true.1 (by decide)), List.takeWhile_cons_of_neg (by decide),
      List.append_nil]
  have hauthority : Url.readAuthority scheme language true =
      .ok ({ scheme, host := some language }, []) := by rfl
  unfold Url.readNetwork
  dsimp only
  rw [hkind, htake, List.drop_left]
  simp only [List.isEmpty_cons, Bool.not_false, Bool.or_true]
  rw [hauthority]
  dsimp only [bind, Except.bind]
  rw [List.nil_append, readPath_place]
  rfl

theorem scheme?_append (rest : Text) : Url.scheme? (scheme ++ ':' :: rest) = some (scheme, rest) := by
  unfold Url.scheme?
  dsimp only
  rw [List.takeWhile_append_of_pos (List.all_eq_true.1 (by decide)),
    List.dropWhile_append_of_pos (List.all_eq_true.1 (by decide)), List.takeWhile_cons_of_neg (by decide),
    List.dropWhile_cons_of_neg (by decide), List.append_nil]
  rfl

/-- Every address is one: `toUrl?` reads its text as its `url`. -/
theorem toUrl?_eq (v : VirtualUri) : v.toUrl? = some v.url := by
  have hlanguage : (['/', '/'] ++ language).all (fun c => decide (0x20 < c.toNat ∧ c ≠ '#' ∧ c ≠ '?')) = true := by
    decide
  have hscheme : scheme.all (fun c => decide (0x20 < c.toNat)) = true := by decide
  have hchars : ∀ c ∈ ['/', '/'] ++ (language ++ '/' :: (v.place ++ suffix)), 0x20 < c.toNat ∧ c ≠ '#' ∧ c ≠ '?' := by
    intro c hc
    rw [← List.append_assoc, List.mem_append, List.mem_cons] at hc
    rcases hc with hc | rfl | hc
    · exact of_decide_eq_true (List.all_eq_true.1 hlanguage c hc)
    · decide
    · have := plain_spec (plain_of_mem hc)
      exact ⟨this.1, this.2.1, this.2.2.1⟩
  have htext : v.toText = scheme ++ ':' :: (['/', '/'] ++ (language ++ '/' :: (v.place ++ suffix))) := by
    simp [toText]
  have hclean : Url.cleaned v.toText = v.toText := by
    refine Url.cleaned_eq_self fun c hc => ?_
    rw [htext, List.mem_append, List.mem_cons] at hc
    rcases hc with hc | rfl | hc
    · exact of_decide_eq_true (List.all_eq_true.1 hscheme c hc)
    · decide
    · exact (hchars c hc).1
  -- nothing is dropped in front, and neither a fragment nor a query begins anywhere
  unfold toUrl? Url.parse? Url.parse
  rw [hclean, htext, scheme?_append]
  dsimp only
  rw [Url.splitFirst_of_not_mem fun hc => (hchars _ hc).2.1 rfl]
  dsimp only
  rw [Url.splitFirst_of_not_mem fun hc => (hchars _ hc).2.2 rfl]
  have hread : Url.readHierarchy scheme (['/', '/'] ++ (language ++ '/' :: (v.place ++ suffix))) false =
      .ok v.url := by
    have hkind : Url.schemeKind scheme = .other := by decide
    unfold Url.readHierarchy
    dsimp only
    rw [hkind]
    exact v.readNetwork_place
  simp only [Option.isSome_none, Bool.or_self, hread]
  rfl

/-- Addresses are told apart by their texts. -/
theorem url_toString_inj {v v' : VirtualUri} (h : v.url.toString = v'.url.toString) : v.url = v'.url := by
  have htext : v.toText = v'.toText := by
    rw [← url_toText, ← url_toText]
    exact String.ofList_injective h
  have := toUrl?_eq v
  rw [toUrl?, htext, ← toUrl?, toUrl?_eq v'] at this
  exact (Option.some.inj this).symm

end VirtualUri

end EmbeddedMarkup
