/-
Framing: messages in a stream of bytes, each behind a header that says how many bytes it has. The
reader takes a stream as far as it has come, and tells a message that is not complete yet from a
stream that has ended.
-/
import EmbeddedMarkup.Json.Reader
import EmbeddedMarkup.Markup.Error
import EmbeddedMarkup.Text.Blank
import EmbeddedMarkup.Text.Decimal
import EmbeddedMarkup.Text.Utf8

namespace EmbeddedMarkup.Frame

/-! ## Writing -/

/-- The header line for a body of so many bytes, without its end. -/
def headerLine (length : Nat) : Text :=
  "Content-Length: ".toList ++ Decimal.digits length

/-- The bytes of a message without its header. -/
def body (j : Json) : List UInt8 :=
  Utf8.encode j.compact

/-- A body behind its header. -/
def wrap (body : List UInt8) : List UInt8 :=
  Utf8.encode (headerLine body.length ++ "\r\n\r\n".toList) ++ body

/-- The bytes of a message. -/
def encode (j : Json) : List UInt8 :=
  wrap (body j)

/-! ## Reading -/

/-- What a line of a header says. -/
inductive HeaderLine where
  /-- That the header ends here. -/
  | blank
  /-- How long the body is, if that is a number. -/
  | length (n : Option Nat)
  /-- Nothing that matters. -/
  | other
  /-- Nothing, since it is no text. -/
  | invalid
  deriving DecidableEq, Repr, Inhabited

/-- Whether a header field gives the length of the body; upper and lower case are the same. -/
def isLengthName (name : Text) : Bool :=
  name.map Char.toLower = "content-length".toList

/-- What a line of a header says, given its bytes. -/
def HeaderLine.ofBytes (line : List UInt8) : HeaderLine :=
  match Utf8.decode? line with
  | none => invalid
  | some t =>
    match Text.trim t with
    | [] => blank
    | t =>
      match t.dropWhile (· ≠ ':') with
      | [] => other
      | _ :: value =>
        if isLengthName (Text.trim (t.takeWhile (· ≠ ':'))) then
          length (Decimal.read? 64 (Text.trim value))
        else
          other

/-- Why there is no message, or not yet. -/
inductive Status where
  /-- More bytes have to come. -/
  | running
  /-- The stream has ended where no message is. -/
  | closed
  /-- The stream makes no sense. -/
  | failed (e : MarkupError)
  deriving DecidableEq, Repr, Inhabited

/-- A message and the bytes behind it, or why there is none. -/
abbrev Reading := Except Status (Json × List UInt8)

/-- Reads the body of a message, whose length is the one the header gave. `isEnded` says that no
more bytes will come. -/
def readBody (isEnded : Bool) (length : Option Nat) (bytes : List UInt8) : Reading :=
  match length with
  | none => .error (.failed .missingLength)
  | some n =>
    if bytes.length < n then
      .error (if isEnded then .failed .io else .running)
    else
      match (Utf8.decode? (bytes.take n)).bind Json.parse? with
      | some j => .ok (j, bytes.drop n)
      | none => .error (.failed .malformed)

/-- Reads the rest of a header and the body behind it. `line` is the line so far, backwards, and
`length` what the lines before it gave. -/
def readFrom (isEnded : Bool) (line : List UInt8) (length : Option Nat) : List UInt8 → Reading
  | [] =>
    if !isEnded then
      .error .running
    else if line.isEmpty then
      .error .closed
    else
      match HeaderLine.ofBytes line.reverse with
      | .invalid => .error (.failed .io)
      | .blank => readBody isEnded length []
      | _ => .error .closed
  | b :: bytes =>
    if b = 0x0A then
      match HeaderLine.ofBytes line.reverse with
      | .invalid => .error (.failed .io)
      | .blank => readBody isEnded length bytes
      | .length n => readFrom isEnded [] n bytes
      | .other => readFrom isEnded [] length bytes
    else
      readFrom isEnded (b :: line) length bytes

/-- Reads the first message of a stream. -/
def read (isEnded : Bool) (bytes : List UInt8) : Reading :=
  readFrom isEnded [] none bytes

/-- At most `count` messages of a stream, the bytes behind them and why there are no more. -/
def readMany (isEnded : Bool) : Nat → List UInt8 → List Json × List UInt8 × Status
  | 0, bytes => ([], bytes, .running)
  | count + 1, bytes =>
    match read isEnded bytes with
    | .error status => ([], bytes, status)
    | .ok (j, bytes) =>
      let (js, rest) := readMany isEnded count bytes
      (j :: js, rest)

/-- All messages of a stream, the bytes behind them and why there are no more. A message has at
least one byte, so that their number is bounded. -/
def readAll (isEnded : Bool) (bytes : List UInt8) : List Json × List UInt8 × Status :=
  readMany isEnded (bytes.length + 1) bytes

end EmbeddedMarkup.Frame
