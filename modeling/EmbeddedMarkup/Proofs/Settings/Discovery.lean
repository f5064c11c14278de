/-
The nearest settings file. The directories in which it is looked for first are the `ancestors`, the parts
in front of the path of the start, longest first; so what is found there is in the innermost directory
that holds such a file, and whether the file makes sense plays no part. Only if none of them holds one,
one of the `subdirectories` right below the start is taken. It cannot be one that lies above: wherever the
names of the path lead, with upward steps or without, each directory around that place has been tried
before.
-/
import EmbeddedMarkup.Settings.Discovery
import Mathlib.Data.List.Infix

namespace EmbeddedMarkup

namespace Path

/-! ## Directories around a directory -/

theorem mem_ancestors_iff {start dir : Path} : dir ∈ ancestors start ↔ dir <+: start := by
  unfold ancestors
  rw [List.mem_map]
  constructor
  · rintro ⟨n, -, rfl⟩
    exact List.take_prefix n start
  · intro h
    refine ⟨dir.length, ?_, (List.prefix_iff_eq_take.1 h).symm⟩
    rw [List.mem_reverse, List.mem_range]
    exact Nat.lt_succ_of_le h.length_le

/-- Among the `ancestors` inner directories come before those around them. -/
theorem ancestors_pairwise (start : Path) : (ancestors start).Pairwise fun a b => b.length < a.length := by
  unfold ancestors
  rw [List.pairwise_map, List.pairwise_reverse]
  refine List.pairwise_lt_range.imp_of_mem fun ha hb hlt => ?_
  rw [List.mem_range] at ha hb
  rw [List.length_take, List.length_take]
  omega

/-- The first of them with a property is the innermost one. -/
theorem find?_ancestors_eq_some {start dir : Path} {p : Path → Bool} (h : (ancestors start).find? p = some dir) :
    dir <+: start ∧ p dir = true ∧ ∀ inner, inner <+: start → dir.length < inner.length → p inner = false := by
  obtain ⟨hp, before, behind, hsplit, hnot⟩ := List.find?_eq_some_iff_append.1 h
  refine ⟨mem_ancestors_iff.1 (List.mem_of_find?_eq_some h), hp, fun inner hinner hlt => ?_⟩
  have hpairwise := ancestors_pairwise start
  have hmem := mem_ancestors_iff.2 hinner
  rw [hsplit] at hpairwise hmem
  rcases List.mem_append.1 hmem with hmem | hmem
  · simpa using hnot inner hmem
  · rcases List.mem_cons.1 hmem with rfl | hmem
    · omega
    · have := (List.pairwise_cons.1 (List.pairwise_append.1 hpairwise).2.1).1 inner hmem
      omega

end Path

namespace FileTree

/-! ## Where paths lead -/

theorem walk?_append (tree : FileTree) (here a b : Path) :
    tree.walk? here (a ++ b) = (tree.walk? here a).bind fun there => tree.walk? there b := by
  induction a generalizing here with
  | nil => rfl
  | cons name a ih =>
    rw [List.cons_append, walk?, walk?]
    split
    · split
      · exact ih _
      · exact ih _
    · rfl

/-- `walk?` leads on by one more name from a directory only. -/
theorem walk?_concat_eq_some {tree : FileTree} {path place : Path} {name : String}
    (h : tree.walk? [] (path ++ [name]) = some place) :
    ∃ here, tree.walk? [] path = some here ∧ tree.entry? here = some .directory ∧
      place = if name = ".." then here.dropLast else here ++ [name] := by
  rw [walk?_append] at h
  obtain ⟨here, hhere, h⟩ := Option.bind_eq_some_iff.1 h
  rw [walk?] at h
  split at h
  · rename_i hdir
    refine ⟨here, hhere, hdir, ?_⟩
    split at h
    · rename_i hup
      cases h
      rw [if_pos hup]
    · rename_i hup
      cases h
      rw [if_neg hup]
  · cases h

theorem walk?_concat {tree : FileTree} {path here : Path} {name : String} (hhere : tree.walk? [] path = some here)
    (hdir : tree.entry? here = some .directory) (hname : name ≠ "..") :
    tree.walk? [] (path ++ [name]) = some (here ++ [name]) := by
  rw [walk?_append, hhere, Option.bind_some, walk?, if_pos hdir, if_neg hname]
  rfl

/-- Every directory around the place that a path leads to is where a part in front of the path leads. -/
theorem exists_prefix_of_walk? {tree : FileTree} {path place around : Path} (h : tree.walk? [] path = some place)
    (haround : around <+: place) : ∃ front, front <+: path ∧ tree.walk? [] front = some around := by
  induction path using List.reverseRecOn generalizing place with
  | nil =>
    cases h
    rw [List.prefix_nil.1 haround]
    exact ⟨[], List.prefix_refl [], rfl⟩
  | append_singleton path name ih =>
    obtain ⟨here, hhere, -, hplace⟩ := walk?_concat_eq_some h
    have hbefore (haround' : around <+: here) :
        ∃ front, front <+: path ++ [name] ∧ tree.walk? [] front = some around := by
      obtain ⟨front, hfront, hwalk⟩ := ih hhere haround'
      exact ⟨front, hfront.trans (List.prefix_append path [name]), hwalk⟩
    split at hplace
    · exact hbefore ((hplace ▸ haround).trans (List.dropLast_prefix here))
    · rcases List.prefix_concat_iff.1 (hplace ▸ haround) with heq | hin
      · exact ⟨path ++ [name], List.prefix_refl _, by rw [h, hplace, heq]⟩
      · exact hbefore hin

theorem isFile_iff {tree : FileTree} {path : Path} :
    tree.isFile path = true ↔ ∃ node, tree.node? path = some node ∧ node ≠ .directory := by
  unfold isFile
  split
  · rename_i content h
    simp [h]
  · rename_i h
    simp [h]
  · rename_i hfile hunreadable
    constructor
    · intro h
      cases h
    · rintro ⟨node, hnode, hne⟩
      cases node with
      | directory => exact absurd rfl hne
      | file content => exact absurd hnode (hfile content)
      | unreadable => exact absurd hnode hunreadable

/-- What `subdirectories` lists of a directory is there under its own name. -/
theorem mem_subdirectories {tree : FileTree} {path here dir : Path} (hhere : tree.walk? [] path = some here) :
    dir ∈ tree.subdirectories path ↔ ∃ name, (here ++ [name], .directory) ∈ tree.nodes ∧ dir = path ++ [name] := by
  unfold subdirectories
  rw [hhere]
  simp only [List.mem_filterMap]
  constructor
  · rintro ⟨⟨place, node⟩, hmem, h⟩
    split at h
    · rename_i hc
      obtain ⟨rfl, rfl, hne⟩ := hc
      obtain ⟨name, hname, rfl⟩ := Option.map_eq_some_iff.1 h
      refine ⟨name, ?_, rfl⟩
      rwa [List.dropLast_append_getLast? name hname]
    · cases h
  · rintro ⟨name, hmem, rfl⟩
    exact ⟨(here ++ [name], .directory), hmem, by simp⟩

/-- What can be looked up behind a name that is no upward step is right below. -/
theorem mem_subdirectories_of_node? {tree : FileTree} {path : Path} {name : String} (hname : name ≠ "..")
    (h : tree.node? (path ++ [name]) = some .directory) : path ++ [name] ∈ tree.subdirectories path := by
  obtain ⟨place, hplace, hentry⟩ := Option.bind_eq_some_iff.1 h
  obtain ⟨here, hhere, -, rfl⟩ := walk?_concat_eq_some hplace
  rw [if_neg hname, entry?, if_neg (by simp)] at hentry
  obtain ⟨front, back, hnodes, -⟩ := List.lookup_eq_some_iff.1 hentry
  exact (mem_subdirectories hhere).2 ⟨name, by simp [hnodes], rfl⟩

end FileTree

namespace Settings

/-! ## What is found -/

/-- Whether a directory holds a settings file: something of that name that is no directory. -/
def Holds (tree : FileTree) (dir : Path) : Prop :=
  ∃ node, tree.node? (dir ++ [fileName]) = some node ∧ node ≠ .directory

/-- Whether `dir` is a directory right below `start`. -/
def IsBelow (tree : FileTree) (start dir : Path) : Prop :=
  ∃ name, name ≠ ".." ∧ dir = start ++ [name] ∧ tree.node? dir = some .directory

/-- The settings that a file gives: what its text says, and the defaults if the text makes no sense, if
there is none behind the bytes, or if the file cannot be read. -/
inductive Gives : FileNode → Settings → Prop where
  | parsed {content : List UInt8} {t : Text} {s : Settings} (ht : Utf8.decode? content = some t)
      (hs : parse? t = some s) : Gives (.file content) s
  | senseless {content : List UInt8} {t : Text} (ht : Utf8.decode? content = some t) (hs : parse? t = none) :
      Gives (.file content) {}
  | garbled {content : List UInt8} (ht : Utf8.decode? content = none) : Gives (.file content) {}
  | unreadable : Gives .unreadable {}

/-- Whether `found` is the settings that the file in `dir` gives, together with `dir`. -/
def IsFrom (tree : FileTree) (dir : Path) (found : Settings × Path) : Prop :=
  ∃ node, tree.node? (dir ++ [fileName]) = some node ∧ node ≠ .directory ∧ Gives node found.1 ∧
    found = (load tree (dir ++ [fileName]), dir)

theorem isHeldBy_iff {tree : FileTree} {dir : Path} : isHeldBy tree dir = true ↔ Holds tree dir :=
  FileTree.isFile_iff

theorem gives_load {tree : FileTree} {path : Path} {node : FileNode} (h : tree.node? path = some node)
    (hne : node ≠ .directory) : Gives node (load tree path) := by
  unfold load FileTree.read?
  rw [h]
  cases node with
  | directory => exact absurd rfl hne
  | unreadable => exact .unreadable
  | file content =>
    cases ht : Utf8.decode? content with
    | none => simpa [ht] using Gives.garbled ht
    | some t =>
      cases hs : parse? t with
      | none => simpa [ht, hs] using Gives.senseless ht hs
      | some s => simpa [ht, hs] using Gives.parsed ht hs

theorem isFrom_load {tree : FileTree} {dir : Path} (h : Holds tree dir) :
    IsFrom tree dir (load tree (dir ++ [fileName]), dir) := by
  obtain ⟨node, hnode, hne⟩ := h
  exact ⟨node, hnode, hne, gives_load hnode hne, rfl⟩

/-- A directory that is listed in the start and holds a settings file is right below it, unless one of the
directories around the start holds one. -/
theorem isBelow_of_mem_subdirectories {tree : FileTree} {start dir : Path} (hdir : dir ∈ tree.subdirectories start)
    (hholds : Holds tree dir) (hnone : ∀ around, around <+: start → ¬ Holds tree around) : IsBelow tree start dir := by
  obtain ⟨node, hnode, hne⟩ := hholds
  obtain ⟨place, hplace, hentry⟩ := Option.bind_eq_some_iff.1 hnode
  obtain ⟨there, hthere, hisdir, hplace'⟩ := FileTree.walk?_concat_eq_some hplace
  obtain ⟨here, hhere⟩ : ∃ here, tree.walk? [] start = some here := by
    unfold FileTree.subdirectories at hdir
    cases hwalk : tree.walk? [] start with
    | none => simp [hwalk] at hdir
    | some here => exact ⟨here, rfl⟩
  obtain ⟨name, -, rfl⟩ := (FileTree.mem_subdirectories hhere).1 hdir
  refine ⟨name, ?_, rfl, by rw [FileTree.node?, hthere, Option.bind_some, hisdir]⟩
  -- an upward step would lead to a directory around the start, which holds no such file
  rintro rfl
  obtain ⟨here', hhere', -, hup⟩ := FileTree.walk?_concat_eq_some hthere
  obtain rfl : here = here' := Option.some.inj (hhere.symm.trans hhere')
  rw [if_pos rfl] at hup
  obtain ⟨front, hfront, hwalk⟩ := FileTree.exists_prefix_of_walk? hhere (hup ▸ List.dropLast_prefix here)
  refine hnone front hfront ⟨node, ?_, hne⟩
  have hname : fileName ≠ ".." := by decide
  rw [if_neg hname] at hplace'
  rw [FileTree.node?, FileTree.walk?_concat hwalk hisdir hname, Option.bind_some, ← hplace', hentry]

/-- The settings that `discover` finds come from the nearest file. If the start or a directory around it
`Holds` a settings file, they are what that of the innermost such directory `Gives`, whether it makes sense or
not and whatever else there is. Otherwise, if directories right below the start hold one, they are what that
of one of these gives. Otherwise they are the defaults, and count as those of the start. -/
theorem discover_nearest (tree : FileTree) (start : Path) :
    ((∃ dir, dir <+: start ∧ Holds tree dir) →
      ∃ dir, dir <+: start ∧ Holds tree dir ∧
        (∀ inner, inner <+: start → dir.length < inner.length → ¬ Holds tree inner) ∧
        IsFrom tree dir (discover tree start)) ∧
    ((∀ dir, dir <+: start → ¬ Holds tree dir) →
      ((∃ dir, IsBelow tree start dir ∧ Holds tree dir) →
        ∃ dir, IsBelow tree start dir ∧ Holds tree dir ∧ IsFrom tree dir (discover tree start)) ∧
      ((∀ dir, IsBelow tree start dir → ¬ Holds tree dir) → discover tree start = ({}, start))) := by
  unfold discover
  rw [List.find?_append]
  constructor
  · rintro ⟨dir, hdir, hholds⟩
    obtain ⟨found, hfound⟩ : ∃ found, (Path.ancestors start).find? (isHeldBy tree) = some found :=
      Option.isSome_iff_exists.1
        (List.find?_isSome.2 ⟨dir, Path.mem_ancestors_iff.2 hdir, isHeldBy_iff.2 hholds⟩)
    obtain ⟨haround, hheld, hinner⟩ := Path.find?_ancestors_eq_some hfound
    rw [hfound, Option.some_or]
    refine ⟨found, haround, isHeldBy_iff.1 hheld, fun inner hin hlt h => ?_, isFrom_load (isHeldBy_iff.1 hheld)⟩
    have := hinner inner hin hlt
    rw [isHeldBy_iff.2 h] at this
    cases this
  · intro hnone
    have houter : (Path.ancestors start).find? (isHeldBy tree) = none :=
      List.find?_eq_none.2 fun dir hdir h => hnone dir (Path.mem_ancestors_iff.1 hdir) (isHeldBy_iff.1 h)
    rw [houter, Option.none_or]
    constructor
    · rintro ⟨dir, ⟨name, hname, rfl, hnode⟩, hholds⟩
      obtain ⟨found, hfound⟩ : ∃ found, (tree.subdirectories start).find? (isHeldBy tree) = some found :=
        Option.isSome_iff_exists.1 (List.find?_isSome.2
          ⟨_, FileTree.mem_subdirectories_of_node? hname hnode, isHeldBy_iff.2 hholds⟩)
      have hheld := isHeldBy_iff.1 (List.find?_some hfound)
      rw [hfound]
      exact ⟨found, isBelow_of_mem_subdirectories (List.mem_of_find?_eq_some hfound) hheld hnone, hheld,
        isFrom_load hheld⟩
    · intro hbelow
      have hinner : (tree.subdirectories start).find? (isHeldBy tree) = none :=
        List.find?_eq_none.2 fun dir hdir h =>
          hbelow dir (isBelow_of_mem_subdirectories hdir (isHeldBy_iff.1 h) hnone) (isHeldBy_iff.1 h)
      rw [hinner]

/-- Bytes that are no text, in front of a good file further out: a directory with the name of the file and
a file right below do not count, and the defaults are those of the middle directory. From further in, the
file there gives its own settings. -/
theorem discover_nearest_garbled :
    let quick := "auto_insert.debounce_ms = 7".toList.map fun c => UInt8.ofNat c.toNat
    let tree : FileTree := ⟨[([fileName], .file []), (["a"], .directory), (["a", fileName], .file [0xFF]),
      (["a", "b"], .directory), (["a", "b", fileName], .directory), (["a", "b", "c"], .directory),
      (["a", "b", "c", fileName], .file quick)]⟩
    ((∃ dir, dir <+: ["a", "b"] ∧ Holds tree dir) ∧ discover tree ["a", "b"] = ({}, ["a"])) ∧
      (∃ dir, dir <+: ["a", "b", "c"] ∧ Holds tree dir) ∧
        discover tree ["a", "b", "c"] = ({ autoInsert := { debounce := 7 } }, ["a", "b", "c"]) := by
  intro quick tree
  have hmiddle : Holds tree ["a"] := ⟨.file [0xFF], by decide, by decide⟩
  have hinmost : Holds tree ["a", "b", "c"] := ⟨.file quick, by decide, by rintro ⟨⟩⟩
  have hexists : ∃ dir, dir <+: ["a", "b"] ∧ Holds tree dir := ⟨["a"], by decide, hmiddle⟩
  have hexists' : ∃ dir, dir <+: ["a", "b", "c"] ∧ Holds tree dir := ⟨["a", "b", "c"], by decide, hinmost⟩
  refine ⟨⟨hexists, ?_⟩, hexists', ?_⟩
  · obtain ⟨dir, hdir, ⟨node, hnode, hne⟩, hinner, -, -, -, -, hfound⟩ := (discover_nearest tree ["a", "b"]).1 hexists
    -- the start has a directory of that name, and the root is further out
    have hmem : dir ∈ [["a", "b"], ["a"], []] := Path.mem_ancestors_iff.2 hdir
    simp only [List.mem_cons, List.not_mem_nil, or_false] at hmem
    rcases hmem with rfl | rfl | rfl
    · rw [show tree.node? (["a", "b"] ++ [fileName]) = some .directory by decide, Option.some.injEq] at hnode
      exact absurd hnode.symm hne
    · rw [hfound]
      decide
    · exact absurd hmiddle (hinner ["a"] (by decide) (by decide))
  · obtain ⟨dir, hdir, -, hinner, -, -, -, -, hfound⟩ := (discover_nearest tree ["a", "b", "c"]).1 hexists'
    obtain rfl : dir = ["a", "b", "c"] := by
      refine hdir.eq_of_length (Nat.le_antisymm hdir.length_le ?_)
      exact Nat.le_of_not_lt fun hlt => hinner ["a", "b", "c"] List.prefix_rfl hlt hinmost
    rw [hfound]
    decide +kernel

end Settings

end EmbeddedMarkup
