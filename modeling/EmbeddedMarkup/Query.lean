/-
Queries: what can be asked of a markup service about a position in a virtual document, the type of
the reply to each, and its form as JSON.
-/
import EmbeddedMarkup.HostCoordinates

namespace EmbeddedMarkup

/-- What is inserted automatically. -/
inductive InsertKind where
  /-- Quotes for the value of an attribute. -/
  | quote
  /-- The closing tag of an element. -/
  | close
  deriving DecidableEq, Repr, Inhabited

namespace InsertKind

/-- The name of a kind in messages. -/
def name : InsertKind → String
  | quote => "autoQuote"
  | close => "autoClose"

/-- The kind that `j` names. -/
def ofJson? (j : Json) : Option InsertKind := do
  let name ← j.str?
  if name = quote.name then return quote
  else if name = close.name then return close
  else none

/-- A kind as JSON. -/
def toJson (k : InsertKind) : Json :=
  .str k.name

end InsertKind

/-- A question about a position. -/
inductive Query where
  /-- What to show about it. -/
  | hover
  /-- What could be written there. -/
  | completion (context : Option CompletionContext)
  /-- Where what stands there is defined. -/
  | definition
  /-- What is edited together with what stands there. -/
  | linkedRanges
  /-- What to insert there automatically, as a snippet. -/
  | autoInsert (kind : InsertKind)
  deriving DecidableEq, Repr, Inhabited

namespace Query

/-- The type of the reply to a query. -/
def Reply : Query → Type
  | hover => Hover
  | completion _ => Completion
  | definition => Definition
  | linkedRanges => LinkedRanges
  | autoInsert _ => String

/-- The reply that `j` is. -/
def replyOfJson? : (q : Query) → Json → Option q.Reply
  | hover => Hover.ofJson?
  | completion _ => Completion.ofJson?
  | definition => Definition.ofJson?
  | linkedRanges => LinkedRanges.ofJson?
  | autoInsert _ => Json.str?

/-- A reply as JSON. -/
def replyToJson : (q : Query) → q.Reply → Json
  | hover => Hover.toJson
  | completion _ => Completion.toJson
  | definition => Definition.toJson
  | linkedRanges => LinkedRanges.toJson
  | autoInsert _ => Json.str

/-- A reply about a virtual document in host coordinates; an empty insertion is no reply. -/
def toHost? (d : HostDocument) (doc : VirtualDocument) : (q : Query) → q.Reply → Option q.Reply
  | hover => fun r => some (Hover.toHost d doc r)
  | completion _ => fun r => some (Completion.toHost d doc r)
  | definition => fun r => some (Definition.toHost d doc r)
  | linkedRanges => fun r => LinkedRanges.toHost? d doc r
  | autoInsert _ => fun (r : String) => if r.isEmpty then none else some r

/-- The method under which a markup server takes a query. -/
def method : Query → String
  | hover => "textDocument/hover"
  | completion _ => "textDocument/completion"
  | definition => "textDocument/definition"
  | linkedRanges => "textDocument/linkedEditingRange"
  | autoInsert _ => "html/autoInsert"

/-- The parameters with which a markup server takes a query. -/
def params (q : Query) (uri : Url) (p : Position) : Json :=
  let place := [("textDocument", Json.obj [("uri", uri.toJson)]), ("position", p.toJson)]
  match q with
  | completion (some context) => .obj (place ++ [("context", context.toJson)])
  | autoInsert kind => .obj (("kind", kind.toJson) :: place)
  | _ => .obj place

end Query

end EmbeddedMarkup
