/-
Hovers: what is shown about the thing under the pointer.
-/
import EmbeddedMarkup.Protocol.Basic

namespace EmbeddedMarkup

/-- Text with its kind. -/
def Shape.markup : Shape :=
  .record [Shape.needs "kind" (.word ["plaintext", "markdown"]), Shape.needs "value" .string]

/-- A text, or code in some language. -/
def Shape.markedString : Shape :=
  .oneOf [.string, .record [Shape.needs "language" .string, Shape.needs "value" .string]]

/-- What a hover may show: one piece, a list of pieces, or a text with its kind. -/
def Shape.hoverContents : Shape :=
  .oneOf [Shape.markedString, .list Shape.markedString, Shape.markup]

/-- A hover. Its contents are only passed on. -/
structure Hover where
  contents : Json
  range : Option Range
  deriving Repr, Inhabited

namespace Hover

/-- The hover that `j` is. -/
def ofJson? (j : Json) : Option Hover := do
  let fields ← j.record? ["contents", "range"]
  return {
    contents := ← Json.required? fields "contents" Shape.hoverContents.reduce?
    range := ← Json.optional? fields "range" Range.ofJson? }

/-- A hover as JSON. -/
def toJson (h : Hover) : Json :=
  .obj (Json.present [("contents", some h.contents), ("range", h.range.map Range.toJson)])

end Hover

end EmbeddedMarkup
