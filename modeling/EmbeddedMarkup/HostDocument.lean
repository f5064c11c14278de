/-
Host documents: a version of an open document together with what is derived from its text, the
regions and their virtual documents, and how positions in the two correspond.
-/
import EmbeddedMarkup.Mask
import EmbeddedMarkup.Text.Change
import EmbeddedMarkup.VirtualDocument

namespace EmbeddedMarkup

/-- One version of a host document, with the regions of its text and their virtual documents, in order. -/
structure HostDocument where
  uri : Url
  text : Text
  version : Int
  regions : List Region
  documents : List VirtualDocument
  deriving DecidableEq, Repr, Inhabited

namespace HostDocument

/-- The virtual documents of `regions`, the first of which has index `index`. -/
def documentsFrom (uri : Url) (text : Text) (index : Nat) : List Region → List VirtualDocument
  | [] => []
  | r :: rest =>
    (VirtualDocument.make? uri index r text).toList ++ documentsFrom uri text (index + 1) rest

/-- A version of a document, derived from its text. -/
def make (uri : Url) (text : Text) (version : Int) : HostDocument :=
  let regions := Region.scan text
  { uri, text, version, regions, documents := documentsFrom uri text 0 regions }

/-- Whether there is any virtual document. -/
def hasRegions (d : HostDocument) : Bool :=
  !d.documents.isEmpty

/-- The line table of the text. -/
def lines (d : HostDocument) : LineTable :=
  LineTable.ofText d.text

/-- The region at a position. -/
def regionAt? (d : HostDocument) (p : Position) : Option Region :=
  (d.lines.offset? p).bind (Region.at? d.regions)

/-- The virtual document at a position, and the position inside it. -/
def documentAt? (d : HostDocument) (p : Position) : Option (VirtualDocument × Position) := do
  let o ← d.lines.offset? p
  let (doc, inner) ← d.documents.findSome? fun doc => (doc.ofHostOffset? o).map (doc, ·)
  return (doc, ← doc.lines.position? inner)

/-- The virtual document with this address. -/
def document? (d : HostDocument) (uri : Url) : Option VirtualDocument :=
  d.documents.find? fun doc => doc.uri = uri

/-- The host position of a position in one of the virtual documents. -/
def toHostPosition? (d : HostDocument) (doc : VirtualDocument) (p : Position) :
    Option Position := do
  let o ← doc.lines.offset? p
  d.lines.position? (doc.toHostOffset o)

/-- The host range of a range in one of the virtual documents; the order of its ends is kept. -/
def toHostRange? (d : HostDocument) (doc : VirtualDocument) (r : Range) : Option Range := do
  return ⟨← d.toHostPosition? doc r.start, ← d.toHostPosition? doc r.stop⟩

/-- The text with everything outside the regions masked. -/
def masked (d : HostDocument) : Text :=
  Mask.mask d.text d.regions

/-- The addresses of virtual documents of `previous` that `current` no longer has; all of them when
the document is gone. -/
def vanished (previous : HostDocument) (current : Option HostDocument) : List Url :=
  (previous.documents.map (·.uri)).filter fun uri =>
    (current.bind fun d => d.document? uri).isNone

end HostDocument

end EmbeddedMarkup
