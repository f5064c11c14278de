/-
File trees: directories and files by their paths, as far as looking for settings needs them.
-/
import EmbeddedMarkup.Text.Utf8

namespace EmbeddedMarkup

/-- The names that lead from the root to a file or directory. -/
abbrev Path := List String

namespace Path

/-- The path that a text with slashes spells, relative to the root. -/
def ofString (s : String) : Path :=
  (s.splitOn "/").filter fun name => name ≠ "" ∧ name ≠ "."

/-- A path with slashes between its names. -/
def toString (p : Path) : String :=
  "/".intercalate p

/-- A directory and those around it, from the innermost to the root. -/
def ancestors (dir : Path) : List Path :=
  (List.range (dir.length + 1)).reverse.map fun n => dir.take n

end Path

/-- What a path can lead to. -/
inductive FileNode where
  | directory
  | file (content : List UInt8)
  /-- A file that is there but cannot be read. -/
  | unreadable
  deriving DecidableEq, Repr, Inhabited

/-- Files and directories below a root, which is a directory itself. -/
structure FileTree where
  /-- Everything below the root, each path once. -/
  nodes : List (Path × FileNode) := []
  deriving DecidableEq, Repr, Inhabited

namespace FileTree

/-- What stands at a path without upward steps. -/
def entry? (tree : FileTree) (path : Path) : Option FileNode :=
  if path.isEmpty then some .directory else tree.nodes.lookup path

/-- The path without upward steps that leads to the same place as a path taken from `here`, where
every name but the last has to be that of a directory. -/
def walk? (tree : FileTree) : Path → Path → Option Path
  | here, [] => some here
  | here, name :: path =>
    if tree.entry? here = some .directory then
      if name = ".." then tree.walk? here.dropLast path else tree.walk? (here ++ [name]) path
    else
      none

/-- What stands at a path. -/
def node? (tree : FileTree) (path : Path) : Option FileNode :=
  (tree.walk? [] path).bind tree.entry?

/-- Whether there is a regular file at a path. -/
def isFile (tree : FileTree) (path : Path) : Bool :=
  match tree.node? path with
  | some (.file _) => true
  | some .unreadable => true
  | _ => false

/-- The bytes of the file at a path, if they can be read. -/
def read? (tree : FileTree) (path : Path) : Option (List UInt8) :=
  match tree.node? path with
  | some (.file content) => some content
  | _ => none

/-- The directories right below the one at a path. -/
def subdirectories (tree : FileTree) (path : Path) : List Path :=
  match tree.walk? [] path with
  | none => []
  | some here =>
    tree.nodes.filterMap fun n =>
      if n.2 = .directory ∧ n.1.dropLast = here ∧ n.1 ≠ [] then
        n.1.getLast?.map fun name => path ++ [name]
      else none

/-- The tree with `node` at a path where nothing was. -/
def put (tree : FileTree) (path : Path) (node : FileNode) : FileTree :=
  if (tree.entry? path).isSome then tree else ⟨tree.nodes ++ [(path, node)]⟩

/-- The tree with `node` at a path and directories on the way to it. -/
def add (tree : FileTree) (path : Path) (node : FileNode) : FileTree :=
  let parents := (Path.ancestors path.dropLast).reverse
  (parents.foldl (fun tree dir => tree.put dir .directory) tree).put path node

end FileTree

end EmbeddedMarkup
