/-
What the server does when the editor opens, changes and closes documents: the session follows, and
virtual documents that are no more are closed on the markup server.
-/
import EmbeddedMarkup.Protocol.Params
import EmbeddedMarkup.Server.Basic

namespace EmbeddedMarkup

/-- Whether a document may hold markup: by its language, or by the end of its name. -/
def OpenedDocument.isHost (d : OpenedDocument) : Bool :=
  d.languageId = "rust" || ".rs".toList.isSuffixOf d.uri.path

namespace Server

/-- Lets the markup client do something. Without a client nothing happens. -/
def onClient (s : Server) (f : Client → Client × List Effect) : Server × List Action :=
  match s.markup with
  | none => (s, [])
  | some c =>
    let (c, effects) := f c
    ({ s with markup := some c }, Action.ofEffects effects)

/-- Closes the virtual documents of a version that the next one does not have. -/
def closeVanished (s : Server) (previous : Option HostDocument) (current : Option HostDocument) :
    Server × List Action :=
  match previous with
  | none => (s, [])
  | some d => s.onClient fun c => c.closeAll (d.vanished current)

/-- Puts off an insertion, if the last of the changes asks for one inside of a region. -/
def schedule (s : Server) (d : HostDocument) (changes : List Change) : Server :=
  let settings := s.settings.autoInsert
  match AutoInsert.detect? changes .edit settings with
  | none => s
  | some trigger =>
    if (d.regionAt? trigger.position).isSome then
      { s with debouncer := s.debouncer.schedule d.uri settings.debounce ⟨d.version, trigger⟩ }
    else
      s

/-- Gives up the insertion into a document that is put off or under way. -/
def unschedule (s : Server) (uri : Url) : Server :=
  { s with debouncer := (s.debouncer.cancel uri).1 }

/-- A document was opened. One that is open already is replaced, and starts anew. -/
def opened (s : Server) (d : OpenedDocument) : Server × List Action :=
  if d.isHost then
    let (session, _, previous) := s.session.put d.uri d.text d.version
    { s with session }.closeVanished previous none
  else
    (s, [])

/-- A document was changed. -/
def changed (s : Server) (d : ChangedDocument) : Server × List Action :=
  let s := s.unschedule d.uri
  match s.session.change? d.uri d.changes d.version with
  | none => (s, [])
  | some (session, current, previous) =>
    let (s, actions) := { s with session }.closeVanished previous (some current)
    (s.schedule current d.changes, actions)

/-- A document was closed. -/
def closed (s : Server) (uri : Url) : Server × List Action :=
  let s := s.unschedule uri
  let (session, previous) := s.session.close uri
  { s with session }.closeVanished previous none

end Server

end EmbeddedMarkup
