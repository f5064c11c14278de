/-
Answers in host coordinates: what was answered about a virtual document, with its places moved into
the host. A place that the host does not have is dropped, together with what makes no sense without
it.
-/
import EmbeddedMarkup.HostDocument
import EmbeddedMarkup.Protocol.Completion
import EmbeddedMarkup.Protocol.Definition
import EmbeddedMarkup.Protocol.LinkedEditing

namespace EmbeddedMarkup

variable (d : HostDocument) (doc : VirtualDocument)

/-- A hover keeps its contents even when it loses its range. -/
def Hover.toHost (h : Hover) : Hover :=
  { h with range := h.range.bind (d.toHostRange? doc) }

/-- An edit in the host. -/
def TextEdit.toHost? (e : TextEdit) : Option TextEdit := do
  return { e with range := ← d.toHostRange? doc e.range }

/-- The edit of a proposal in the host. -/
def CompletionEdit.toHost? : CompletionEdit → Option CompletionEdit
  | replace e => (e.toHost? d doc).map replace
  | insertOrReplace newText i r => do
    return insertOrReplace newText (← d.toHostRange? doc i) (← d.toHostRange? doc r)

/-- A proposal in the host; there is none unless all of its edits are there. -/
def CompletionItem.toHost? (c : CompletionItem) : Option CompletionItem := do
  let edit ← match c.edit with
    | none => some none
    | some e => (e.toHost? d doc).map some
  let additionalEdits ← match c.additionalEdits with
    | none => some none
    | some es => (es.mapM (TextEdit.toHost? d doc)).map some
  return { c with edit, additionalEdits }

/-- The proposals that are in the host. -/
def Completion.toHost : Completion → Completion
  | items is => items (is.filterMap (CompletionItem.toHost? d doc))
  | list isIncomplete is => list isIncomplete (is.filterMap (CompletionItem.toHost? d doc))

/-- A location in the host; one in another document stays as it is. -/
def Location.toHost? (l : Location) : Option Location :=
  if l.uri ≠ doc.uri then
    some l
  else
    (d.toHostRange? doc l.range).map fun range => { uri := d.uri, range }

/-- A link into the host; one into another document stays as it is. -/
def LocationLink.toHost? (l : LocationLink) : Option LocationLink :=
  if l.targetUri ≠ doc.uri then
    some l
  else do
    return {
      origin := l.origin.bind (d.toHostRange? doc)
      targetUri := d.uri
      targetRange := ← d.toHostRange? doc l.targetRange
      targetSelection := ← d.toHostRange? doc l.targetSelection }

/-- The places that are in the host or in another document, always as a list. -/
def Definition.toHost : Definition → Definition
  | one l => many (l.toHost? d doc).toList
  | many ls => many (ls.filterMap (Location.toHost? d doc))
  | links ls => links (ls.filterMap (LocationLink.toHost? d doc))

/-- Linked ranges in the host: all of them or none. -/
def LinkedRanges.toHost? (l : LinkedRanges) : Option LinkedRanges := do
  return { l with ranges := ← l.ranges.mapM (d.toHostRange? doc) }

end EmbeddedMarkup
