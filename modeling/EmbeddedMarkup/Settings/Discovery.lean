/-
Finding the settings for a directory: in the nearest settings file from there outwards, or else in
one right below.
-/
import EmbeddedMarkup.FileTree
import EmbeddedMarkup.Settings.Reader

namespace EmbeddedMarkup.Settings

/-- The name of settings files. -/
def fileName : String := "uibeam-lsp.toml"

/-- Whether a directory holds a settings file. -/
def isHeldBy (tree : FileTree) (dir : Path) : Bool :=
  tree.isFile (dir ++ [fileName])

/-- The settings in a file, which are the defaults if it cannot be read or makes no sense. -/
def load (tree : FileTree) (path : Path) : Settings :=
  (((tree.read? path).bind Utf8.decode?).bind parse?).getD {}

/-- The settings for a directory, and the directory that they are from. -/
def discover (tree : FileTree) (start : Path) : Settings × Path :=
  match (Path.ancestors start ++ tree.subdirectories start).find? (isHeldBy tree) with
  | some dir => (load tree (dir ++ [fileName]), dir)
  | none => ({}, start)

end EmbeddedMarkup.Settings
