/-
URLs in their normal form: the parts, and the text that they make.
-/
import EmbeddedMarkup.Percent
import EmbeddedMarkup.Text.Decimal

namespace EmbeddedMarkup

/-- A URL in normal form. -/
structure Url where
  /-- The scheme, in lower case. -/
  scheme : Text
  /-- The user name, coded. -/
  username : Text := []
  /-- The password, coded; never empty. -/
  password : Option Text := none
  /-- The host, which may be empty; absent when there is no authority at all. -/
  host : Option Text := none
  /-- The number behind the host, unless it is the usual one of the scheme. -/
  portNumber : Option Nat := none
  /-- The path, coded: segments each behind a slash, or any text when there is no authority. -/
  path : Text := []
  /-- What stands behind a question mark. -/
  query : Option Text := none
  /-- What stands behind a number sign. -/
  fragment : Option Text := none
  deriving DecidableEq, Repr, Inhabited

namespace Url

/-- Why a text is no URL. -/
inductive Error where
  /-- It has no scheme. -/
  | relative
  /-- Its scheme wants a host, or it has a user name or a number without one. -/
  | emptyHost
  /-- The domain name has a character that none may have. -/
  | invalidName
  /-- The host has a character that none may have. -/
  | invalidHostCharacter
  /-- The host ends in a number and is no IPv4 address. -/
  | invalidIpv4
  /-- The host is in brackets and is no IPv6 address. -/
  | invalidIpv6
  /-- What follows the colon behind the host is no number below 65536. -/
  | invalidPort
  deriving DecidableEq, Repr, Inhabited

/-- The wording of each error. -/
def Error.message : Error → String
  | relative => "relative URL without a base"
  | emptyHost => "empty host"
  | invalidName => "invalid international domain name"
  | invalidHostCharacter => "invalid domain character"
  | invalidIpv4 => "invalid IPv4 address"
  | invalidIpv6 => "invalid IPv6 address"
  | invalidPort => "invalid port number"

/-- User name and password in front of the host. -/
def userinfo (u : Url) : Text :=
  match u.username, u.password with
  | [], none => []
  | name, none => name ++ ['@']
  | name, some word => name ++ ':' :: word ++ ['@']

/-- The authority with its two slashes. -/
def authority (u : Url) : Text :=
  match u.host with
  | none => []
  | some host =>
    ['/', '/'] ++ u.userinfo ++ host ++ (u.portNumber.elim [] fun n => ':' :: Decimal.digits n)

/-- The text of a URL. Without an authority, a path that begins with two slashes gets `/.` in front,
so that it is not taken for one. -/
def toText (u : Url) : Text :=
  let guard := match u.host, u.path with
    | none, '/' :: '/' :: _ => ['/', '.']
    | _, _ => []
  u.scheme ++ ':' :: u.authority ++ guard ++ u.path ++ (u.query.elim [] ('?' :: ·)) ++
    (u.fragment.elim [] ('#' :: ·))

/-- The text of a URL as a string. -/
def toString (u : Url) : String :=
  String.ofList u.toText

end Url

end EmbeddedMarkup
