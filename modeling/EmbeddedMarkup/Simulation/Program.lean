/-
Simulated programs: those of a bare system that can be run in place of a markup server, and what
comes of running them.
-/
import EmbeddedMarkup.Markup.Dialogue
import EmbeddedMarkup.Markup.Handshake
import EmbeddedMarkup.Settings.Basic
import EmbeddedMarkup.Simulation.Peer

namespace EmbeddedMarkup.Simulation

/-! ## Programs -/

/-- A program as a markup client sees it. -/
structure Program where
  /-- What it sends when it is started. -/
  greeting : List Dialogue.Portion := []
  peer : Peer
  deriving Repr, Inhabited

/-- The value of octal digits. -/
def octal (ds : List Char) : Nat :=
  ds.foldl (fun n c => n * 8 + (c.toNat - '0'.toNat)) 0

/-- Whether a character is an octal digit. -/
def isOctal (c : Char) : Bool :=
  '0' ≤ c && c ≤ '7'

/-- The bytes that a format stands for: escapes begin with a backslash, and a percent sign is
doubled. -/
def format : List Char → List UInt8
  | [] => []
  | '\\' :: 'r' :: t => 0x0D :: format t
  | '\\' :: 'n' :: t => 0x0A :: format t
  | '\\' :: 't' :: t => 0x09 :: format t
  | '\\' :: '\\' :: t => 0x5C :: format t
  | '\\' :: '"' :: t => 0x22 :: format t
  | '\\' :: a :: b :: c :: t =>
    if isOctal a && isOctal b && isOctal c then
      (octal [a, b, c]).toUInt8 :: format t
    else
      0x5C :: format (a :: b :: c :: t)
  | '%' :: '%' :: t => 0x25 :: format t
  | c :: t => Utf8.encode [c] ++ format t

/-- The rest of a word of a command line, with its quotes resolved. `quoted` is the quote that is
open. -/
def wordRest (quoted : Option Char) : List Char → List Char
  | [] => []
  | '\\' :: c :: t =>
    if quoted = none then c :: wordRest none t else '\\' :: wordRest quoted (c :: t)
  | c :: t =>
    match quoted with
    | none =>
      if c = '\'' || c = '"' then wordRest (some c) t
      else if c = ' ' || c = ';' then []
      else c :: wordRest none t
    | some q => if c = q then wordRest none t else c :: wordRest quoted t

/-- A program that sends some bytes and exits. -/
def Program.sends (bytes : List UInt8) : Program :=
  { greeting := [.bytes bytes, .ending], peer := .gone }

/-- The program that a command line runs, if it prints one text. -/
def Program.ofScript (script : String) : Program :=
  let printing := "printf ".toList
  let line := script.toList
  if printing.isPrefixOf line then
    .sends (format (wordRest none (line.drop printing.length)))
  else
    .sends []

/-- The directories of the system. -/
def directories : List String :=
  ["", ".", "..", "/", "/bin", "/dev", "/etc", "/home", "/proc", "/root", "/tmp", "/usr",
    "/usr/bin", "/var"]

/-- A name without the directories that programs are found in. -/
def programName (command : String) : String :=
  let command := command.toList
  let strip (dir : String) : Option (List Char) :=
    if dir.toList.isPrefixOf command then some (command.drop dir.toList.length) else none
  String.ofList (((strip "/usr/bin/").or (strip "/bin/")).getD command)

/-- The program that a command runs, or why it does not. -/
def Program.find (settings : MarkupSettings) (root : Option String) : Except String Program :=
  let missing := "No such file or directory (os error 2)"
  if root.any fun dir => !directories.contains dir then
    .error missing
  else if settings.command = "" then
    .error missing
  else if directories.contains settings.command then
    .error "Permission denied (os error 13)"
  else
    match programName settings.command, settings.args with
    | "cat", [] => .ok { peer := .echo }
    | "cat", ["-"] => .ok { peer := .echo }
    | "true", _ => .ok (.sends [])
    | "false", _ => .ok (.sends [])
    | "sh", ["-c", script] => .ok (.ofScript script)
    | "sh", _ => .ok (.sends [])
    | "cat", _ => .ok (.sends [])
    | _, _ => .error missing

/-! ## Talking to a program -/

/-- The messages among effects that were written. -/
def written (effects : List Effect) : List Outgoing :=
  effects.filterMap fun e =>
    match e with
    | .write message => some message
    | _ => none

/-- What a peer sends when messages reach it. -/
def reactAll (peer : Peer) : List Outgoing → Peer × List Dialogue.Portion
  | [] => (peer, [])
  | message :: messages =>
    let (peer, reaction) := peer.react message
    let (peer, more) := reactAll peer messages
    (peer, reaction.messages.map (fun j => .bytes (Frame.encode j)) ++
      (if reaction.isEnd then [.ending] else []) ++ more)

/-- Lets a client and a peer talk for some rounds, after effects of which the peer does not know.
Answers are not answered, so that few rounds do. -/
def talk : Nat → Connection → Peer → List Effect → Connection × Peer × List Effect
  | 0, c, peer, effects => (c, peer, effects)
  | rounds + 1, c, peer, effects =>
    let (peer, portions) := reactAll peer (written effects)
    let (c, more) := Dialogue.serve c portions
    let (c, peer, rest) := talk rounds c peer more
    (c, peer, effects ++ rest)

/-- The number of rounds that a talk has. -/
def rounds : Nat := 4

/-- Does something with the client and talks about it: the response to the request that was made. -/
def exchange (c : Connection) (peer : Peer) (action : Client → Client × Except MarkupError Nat) :
    Connection × Peer × Response :=
  let (c, effects, request) := c.run fun client =>
    let (client, request) := action client
    (client, [], request)
  let (c, peer, effects) := talk rounds c peer effects
  match request with
  | .error e => (c, peer, .error e)
  | .ok id => (c, peer, (Dialogue.responseIn? id effects).getD (.error .stopped))

/-- Starts a program, asks it about a position in a document and gives the reply, or why it could
not be started. -/
def start (settings : MarkupSettings) (root : Option String) (doc : VirtualDocument)
    (position : Position) : Except MarkupError (Option Hover) := do
  let program ← (Program.find settings root).mapError fun reason => .spawn settings.command reason
  let (c, effects, request) := ({} : Connection).run fun client =>
    let (client, request) := client.requestInitialize 1 (root.map Path.ofString)
    (client, [], request)
  let (c, greeting) := Dialogue.serve c program.greeting
  let (c, peer, effects) := talk rounds c program.peer (effects ++ greeting)
  let id ← request
  let (client, notified) ←
    c.client.concludeInitialize ((Dialogue.responseIn? id effects).getD (.error .stopped))
  let (c, effects, _) := { c with client }.run fun client =>
    let (client, effects) := client.sync doc
    (client, notified ++ effects, ())
  let (c, peer, _) := talk rounds c peer effects
  let (_, _, response) := exchange c peer fun client => client.ask doc .hover position
  return (Query.hover.conclude response).1

end EmbeddedMarkup.Simulation
