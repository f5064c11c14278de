/-
Reading URLs: a text is brought into normal form, or refused with a reason. Blanks around the text
and tabs and line ends inside it are dropped, dot segments are resolved, and what may not stand for
itself is percent-coded.
-/
import EmbeddedMarkup.Url.Basic
import EmbeddedMarkup.Url.Domain

namespace EmbeddedMarkup.Url

/-! ## What is coded where -/

/-- Bytes that are kept everywhere, but for those listed: printable ASCII. -/
def keepAllBut (coded : String) (b : UInt8) : Bool :=
  0x20 ≤ b && b < 0x7F && !coded.toList.contains (Char.ofNat b.toNat)

/-- Bytes kept in a path without segments. -/
def keepInVerbatim : UInt8 → Bool :=
  keepAllBut ""

/-- Bytes kept in a fragment. -/
def keepInFragment : UInt8 → Bool :=
  keepAllBut " \"<>`"

/-- Bytes kept in a query. -/
def keepInQuery : UInt8 → Bool :=
  keepAllBut " \"#<>"

/-- Bytes kept in the query of a web URL. -/
def keepInWebQuery : UInt8 → Bool :=
  keepAllBut " \"#<>'"

/-- Bytes kept in a path segment. -/
def keepInPath : UInt8 → Bool :=
  keepAllBut " \"<>`#?\x7b\x7d"

/-- Bytes kept in the name of a file: none that ends a segment or begins a triplet. -/
def keepInFileName : UInt8 → Bool :=
  keepAllBut " \"<>`#?\x7b\x7d/%\\"

/-- Bytes kept in a user name or password. -/
def keepInUserinfo : UInt8 → Bool :=
  keepAllBut " \"<>`#?\x7b\x7d/:;=@[\\]^|"

/-! ## Schemes -/

/-- The three ways of reading what follows a scheme. -/
inductive SchemeKind where
  /-- Files, perhaps with a host. -/
  | file
  /-- Schemes that always have a host, and in which a backslash is a slash. -/
  | web
  /-- All other schemes. -/
  | other
  deriving DecidableEq, Repr, Inhabited

/-- The number that is usual behind the host for a web scheme. -/
def usualPort? (scheme : Text) : Option Nat :=
  ([("http", 80), ("https", 443), ("ws", 80), ("wss", 443), ("ftp", 21)].find? fun p =>
    p.1.toList == scheme).map (·.2)

/-- The kind of a scheme. -/
def schemeKind (scheme : Text) : SchemeKind :=
  if scheme = "file".toList then .file else if (usualPort? scheme).isSome then .web else .other

/-- Whether a backslash counts as a slash. -/
def SchemeKind.isSpecial (k : SchemeKind) : Bool :=
  k != .other

/-- Whether `c` separates path segments. -/
def SchemeKind.isSlash (k : SchemeKind) (c : Char) : Bool :=
  c = '/' || (k.isSpecial && c = '\\')

/-- Whether `c` ends an authority. -/
def SchemeKind.endsAuthority (k : SchemeKind) (c : Char) : Bool :=
  k.isSlash c || c = '?' || c = '#'

/-- The scheme in lower case, and what follows its colon. -/
def scheme? (t : Text) : Option (Text × Text) :=
  let isSchemeChar (c : Char) : Bool := c.isAlphanum || c = '+' || c = '-' || c = '.'
  match t.takeWhile isSchemeChar, t.dropWhile isSchemeChar with
  | c :: name, ':' :: rest => if c.isAlpha then some ((c :: name).map Char.toLower, rest) else none
  | _, _ => none

/-! ## Authorities -/

/-- What precedes and follows the last `sep` of `t`. -/
def splitLast? (sep : Char) (t : Text) : Option (Text × Text) :=
  if t.contains sep then
    some ((t.reverse.dropWhile (· ≠ sep)).reverse.dropLast, (t.reverse.takeWhile (· ≠ sep)).reverse)
  else
    none

/-- What precedes the first `sep` of `t`, and what follows it if there is one. -/
def splitFirst (sep : Char) (t : Text) : Text × Option Text :=
  match t.dropWhile (· ≠ sep) with
  | [] => (t, none)
  | _ :: rest => (t.takeWhile (· ≠ sep), some rest)

/-- User name and password of what stands before the at sign. -/
def readUserinfo (t : Text) : Text × Option Text :=
  let (name, word) := splitFirst ':' t
  let word := word.bind fun w => if w.isEmpty then none else some (Percent.encode keepInUserinfo w)
  (Percent.encode keepInUserinfo name, word)

/-- The text up to the first colon outside of brackets, and the text from that colon on. -/
def splitHostPort (bracketed : Bool) : Text → Text × Text
  | [] => ([], [])
  | c :: t =>
    if c = ':' && !bracketed then
      ([], c :: t)
    else
      let inside := if c = '[' then true else if c = ']' then false else bracketed
      let (host, rest) := splitHostPort inside t
      (c :: host, rest)

/-- An IPv6 host in its brackets. -/
def readBracketed (t : Text) : Except Error Text :=
  match t.getLast? with
  | some ']' =>
    match ipv6? (t.drop 1).dropLast with
    | some pieces => .ok ('[' :: ipv6Text pieces ++ [']'])
    | none => .error .invalidIpv6
  | _ => .error .invalidIpv6

/-- The host of a file or web URL: an address or a domain name. -/
def readNamedHost (t : Text) : Except Error Text :=
  match t with
  | '[' :: _ => readBracketed t
  | _ =>
    match (Percent.decode? t).bind asciiName? with
    | none => .error .invalidName
    | some [] => .error .emptyHost
    | some name =>
      if endsInNumber name then
        match ipv4? name with
        | some a => .ok (ipv4Text a)
        | none => .error .invalidIpv4
      else
        .ok name

/-- Characters that the host of another URL may not hold. -/
def isForbiddenInHost (c : Char) : Bool :=
  [Char.ofNat 0, '\t', '\n', '\r', ' ', '#', '/', ':', '<', '>', '?', '@', '[', '\\', ']', '^',
    '|'].contains c

/-- The host of any other URL: an IPv6 address, or a text that is coded where it has to be. -/
def readOtherHost (t : Text) : Except Error Text :=
  match t with
  | '[' :: _ => readBracketed t
  | _ =>
    if t.any isForbiddenInHost then
      .error .invalidHostCharacter
    else
      .ok (Percent.encode keepInVerbatim t)

/-- The number behind the host's colon; the usual one is left out. -/
def readPort (usual : Option Nat) (t : Text) : Except Error (Option Nat) :=
  if !t.all Char.isDigit || 65535 < Decimal.value t then
    .error .invalidPort
  else if t.isEmpty || usual = some (Decimal.value t) then
    .ok none
  else
    .ok (some (Decimal.value t))

/-- Reads the authority `t` of a URL with the given scheme; `more` tells whether something follows
it. A backslash ends the number behind the host even where it is no slash: what follows is given
back. -/
def readAuthority (scheme t : Text) (more : Bool) : Except Error (Url × Text) := do
  let kind := schemeKind scheme
  let (user, hostPort) := (splitLast? '@' t).elim (none, t) fun r => (some r.1, r.2)
  if user = some [] ∧ hostPort.isEmpty ∧ more then
    throw .emptyHost
  let (name, word) := readUserinfo (user.getD [])
  let (host, behind) := splitHostPort false hostPort
  if kind = .web ∧ host.isEmpty then
    throw .emptyHost
  let host ← if kind.isSpecial then readNamedHost host else readOtherHost host
  if host.isEmpty ∧ !behind.isEmpty then
    throw .emptyHost
  let number ← readPort (usualPort? scheme) ((behind.drop 1).takeWhile (· ≠ '\\'))
  if host.isEmpty ∧ (!name.isEmpty ∨ word.isSome) then
    throw .emptyHost
  return ({ scheme, username := name, password := word, host := some host, portNumber := number },
    behind.dropWhile (· ≠ '\\'))

/-! ## Paths -/

/-- The parts of `t` between slashes of kind `k`. -/
def splitSegments (k : SchemeKind) : Text → List Text
  | [] => [[]]
  | c :: t =>
    if k.isSlash c then
      [] :: splitSegments k t
    else
      match splitSegments k t with
      | [] => [[c]]
      | part :: parts => (c :: part) :: parts

/-- A segment with its coded dots resolved. -/
def undot (segment : Text) : Text :=
  match segment with
  | '%' :: '2' :: e :: rest => if e = 'e' || e = 'E' then '.' :: undot rest else segment
  | '.' :: rest => '.' :: undot rest
  | _ => segment

/-- Whether a segment stands for its own directory. -/
def isSingleDot (segment : Text) : Bool :=
  undot segment == ['.']

/-- Whether a segment stands for the directory above. -/
def isDoubleDot (segment : Text) : Bool :=
  undot segment == ['.', '.']

/-- Whether a segment is a drive letter. -/
def isDriveLetter : Text → Bool
  | [c, d] => c.isAlpha && (d = ':' || d = '|')
  | _ => false

/-- A path without its last segment; a drive letter stays. -/
def shorten (path : List Text) : List Text :=
  if path.getLast?.any isDriveLetter then path else path.dropLast

/-- Appends coded segments to a path, resolving dots. A dot segment at the very end leaves an empty
segment behind, and a drive letter in front of a file path gets a colon. -/
def addSegments (k : SchemeKind) (path : List Text) : List Text → List Text
  | [] => path
  | s :: rest =>
    let ending := if rest.isEmpty then [[]] else []
    if isDoubleDot s then
      addSegments k (shorten path ++ ending) rest
    else if isSingleDot s then
      addSegments k (path ++ ending) rest
    else if k == .file && path.isEmpty && isDriveLetter s then
      addSegments k [[s.headD 'c', ':']] rest
    else
      addSegments k (path ++ [s]) rest

/-- Segments without the empty ones in front; one segment at least is left. -/
def dropEmpty (path : List Text) : List Text :=
  match path.dropWhile List.isEmpty with
  | [] => [[]]
  | path => path

/-- The segments of a path text without its first slash. -/
def readSegments (k : SchemeKind) (t : Text) : List Text :=
  addSegments k [] ((splitSegments k t).map (Percent.encode keepInPath))

/-- Segments each behind a slash. -/
def joinSegments (path : List Text) : Text :=
  path.flatMap ('/' :: ·)

/-- `t` without one slash in front. -/
def dropSlash (k : SchemeKind) : Text → Text
  | [] => []
  | c :: t => if k.isSlash c then t else c :: t

/-! ## The whole -/

/-- The path of a URL with an authority: never empty, unless the scheme is another one. -/
def readPath (k : SchemeKind) (t : Text) : Text :=
  if t.isEmpty && !k.isSpecial then [] else joinSegments (readSegments k (dropSlash k t))

/-- The segments of a file path. -/
def readFileSegments (t : Text) : List Text :=
  readSegments .file (dropSlash .file t)

/-- A file URL with this host and these segments. The computer itself has no name, and neither has
one with drive letters. -/
def ofFileSegments (host : Text) (segments : List Text) : Url :=
  let isNameless := host = "localhost".toList || segments.head?.any isDriveLetter
  { scheme := "file".toList
    host := some (if isNameless then [] else host)
    path := joinSegments (dropEmpty segments) }

/-- Reads what follows the scheme of a file URL, up to the query. -/
def readFile (t : Text) : Except Error Url := do
  let isSlash := SchemeKind.file.isSlash
  match t with
  | a :: b :: rest =>
    let host := rest.takeWhile fun c => !isSlash c
    if !(isSlash a && isSlash b) then
      return ofFileSegments [] (readFileSegments t)
    else if isDriveLetter host then
      return ofFileSegments [] (readFileSegments rest)
    else
      let name ← if host.isEmpty then pure [] else readNamedHost host
      return ofFileSegments name (readFileSegments (rest.drop host.length))
  | _ => return ofFileSegments [] (readFileSegments t)

/-- Reads what follows the two slashes of a URL, up to the query; `more` tells whether something
follows it. -/
def readNetwork (scheme t : Text) (more : Bool) : Except Error Url := do
  let kind := schemeKind scheme
  let authority := t.takeWhile fun c => !kind.endsAuthority c
  let rest := t.drop authority.length
  let (url, stray) ← readAuthority scheme authority (more || !rest.isEmpty)
  return { url with path := readPath kind (stray ++ rest) }

/-- Reads what follows the scheme of a URL, up to the query; `more` tells whether something follows
it. -/
def readHierarchy (scheme t : Text) (more : Bool) : Except Error Url :=
  let kind := schemeKind scheme
  match kind, t with
  | .file, _ => readFile t
  | .web, _ => readNetwork scheme (t.dropWhile kind.isSlash) more
  | .other, '/' :: '/' :: rest => readNetwork scheme rest more
  | .other, '/' :: rest => .ok { scheme, path := joinSegments (readSegments kind rest) }
  | .other, _ => .ok { scheme, path := Percent.encode keepInVerbatim t }

/-- `t` without control characters and spaces at its ends, and without tabs and line ends. -/
def cleaned (t : Text) : Text :=
  let isEdge (c : Char) : Bool := c.toNat ≤ 0x20
  let inner := ((t.dropWhile isEdge).reverse.dropWhile isEdge).reverse
  inner.filter fun c => c ≠ '\t' && c ≠ '\n' && c ≠ '\r'

/-- The URL that `t` writes. -/
def parse (t : Text) : Except Error Url :=
  match scheme? (cleaned t) with
  | none => .error .relative
  | some (scheme, rest) => do
    let (rest, fragment) := splitFirst '#' rest
    let (rest, query) := splitFirst '?' rest
    let url ← readHierarchy scheme rest (query.isSome || fragment.isSome)
    let keep := if (schemeKind scheme).isSpecial then keepInWebQuery else keepInQuery
    return { url with
      query := query.map (Percent.encode keep)
      fragment := fragment.map (Percent.encode keepInFragment) }

/-- The URL that `t` writes, if it does. -/
def parse? (t : Text) : Option Url :=
  (parse t).toOption

end EmbeddedMarkup.Url
