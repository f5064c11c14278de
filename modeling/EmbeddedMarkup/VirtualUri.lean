/-
Virtual URIs: the addresses of the documents made from a host document. The host's own URI is
percent-coded into the path, so that an address tells what it was made from.
-/
import EmbeddedMarkup.Url.Reader

namespace EmbeddedMarkup

/-- What a virtual URI is the address of. -/
inductive VirtualUri where
  /-- The whole host document with everything outside its regions masked. -/
  | masked (host : Url)
  /-- The region of the host with this index. -/
  | region (host : Url) (index : Nat)
  deriving DecidableEq, Repr, Inhabited

namespace VirtualUri

/-- The scheme of virtual URIs. -/
def scheme : Text :=
  "embedded-content".toList

/-- The language of virtual documents: the host part of their URIs. -/
def language : Text :=
  "html".toList

/-- The ending of their paths. -/
def suffix : Text :=
  '.' :: language

/-- The document that the one at this address was made from. -/
def host : VirtualUri → Url
  | masked host => host
  | region host _ => host

/-- The path of an address behind its first slash, without the ending. -/
def place : VirtualUri → Text
  | masked host => Percent.component host.toText
  | region host index => Percent.component host.toText ++ '/' :: Decimal.digits index

/-- The text of an address. -/
def toText (v : VirtualUri) : Text :=
  scheme ++ [':', '/', '/'] ++ language ++ '/' :: v.place ++ suffix

/-- The URL of an address. -/
def toUrl? (v : VirtualUri) : Option Url :=
  Url.parse? v.toText

/-- `t` without `ending` at its end. -/
def dropSuffix? (ending t : Text) : Option Text :=
  if ending.isSuffixOf t then some (t.take (t.length - ending.length)) else none

/-- What a URL is the address of: scheme, host and the form of the path decide, and everything else
is ignored. -/
def ofUrl? (u : Url) : Option VirtualUri :=
  if u.scheme = scheme ∧ u.host = some language then
    match u.path with
    | '/' :: path => do
      let (coded, index) := Url.splitFirst '/' (← dropSuffix? suffix path)
      let host ← (Percent.decode? coded).bind Url.parse?
      match index with
      | none => return masked host
      | some digits => return region host (← Decimal.read? 64 digits)
    | _ => none
  else
    none

end VirtualUri

end EmbeddedMarkup
