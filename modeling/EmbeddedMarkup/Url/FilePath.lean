/-
URLs and file paths.
-/
import EmbeddedMarkup.FileTree
import EmbeddedMarkup.Url.Reader

namespace EmbeddedMarkup.Url

/-- The path of the file that a URL leads to, on this computer only: it must have a path with
slashes and no host but the computer itself. -/
def toPath? (u : Url) : Option Path :=
  let isLocal := u.host.all fun host => host = [] ∨ host = "localhost".toList
  match u.path with
  | '/' :: rest =>
    if isLocal then (Percent.decode? rest).map fun t => Path.ofString (String.ofList t) else none
  | _ => none

/-- The URL of a directory. -/
def ofDirectory (dir : Path) : Url :=
  { scheme := "file".toList
    host := some []
    path := '/' :: dir.flatMap fun name => Percent.encode keepInFileName name.toList ++ ['/'] }

end EmbeddedMarkup.Url
