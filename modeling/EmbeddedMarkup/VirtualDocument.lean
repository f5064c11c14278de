/-
Virtual documents: the text of one region as a document of its own, and how its offsets correspond
to those of its host.
-/
import EmbeddedMarkup.Region
import EmbeddedMarkup.Text.Lines
import EmbeddedMarkup.VirtualUri

namespace EmbeddedMarkup

/-- The document made from one region of a host document. -/
structure VirtualDocument where
  uri : Url
  /-- Where its text stands in the host. -/
  region : Region
  content : Text
  deriving DecidableEq, Repr, Inhabited

namespace VirtualDocument

/-- The document of `region`, the one with this index, in the text of `host`; there is none when the
region is no slice of the text. -/
def make? (host : Url) (index : Nat) (region : Region) (text : Text) : Option VirtualDocument := do
  let content ← Text.slice? text region.start region.stop
  let uri ← (VirtualUri.region host index).toUrl?
  return { uri, region, content }

/-- The line table of the document. -/
def lines (d : VirtualDocument) : LineTable :=
  LineTable.ofText d.content

/-- The offset in the document of host offset `o`, which must lie in the region or at its end. -/
def ofHostOffset? (d : VirtualDocument) (o : Nat) : Option Nat :=
  if d.region.contains o then some (o - d.region.start) else none

/-- The host offset of offset `o` in the document; beyond the end it is that of the end. -/
def toHostOffset (d : VirtualDocument) (o : Nat) : Nat :=
  d.region.start + min o d.region.length

end VirtualDocument

end EmbeddedMarkup
