/-
Connections: a client together with the two streams between it and its server.
-/
import EmbeddedMarkup.Markup.Client
import EmbeddedMarkup.Markup.Frame

namespace EmbeddedMarkup

/-- A client and the streams to and from its server. -/
structure Connection where
  client : Client := {}
  /-- Bytes from the server that no message has been read from. -/
  unread : List UInt8 := []
  /-- Whether the server takes what is written. -/
  isWritable : Bool := true
  deriving Inhabited

namespace Connection

/-- Writes at most `count` messages of the queue. -/
def writeMany : Nat → Connection → Connection × List Effect
  | 0, c => (c, [])
  | count + 1, c =>
    let (client, effects) := c.client.writeNext c.isWritable
    let (c, more) := writeMany count { c with client }
    (c, effects ++ more)

/-- Writes all messages of the queue. -/
def flush (c : Connection) : Connection × List Effect :=
  writeMany c.client.queue.length c

/-- Does something with the client and writes what it queued. -/
def run {α : Type} (c : Connection) (action : Client → Client × List Effect × α) :
    Connection × List Effect × α :=
  let (client, effects, result) := action c.client
  let (c, written) := { c with client }.flush
  (c, effects ++ written, result)

/-- Takes bytes from the server, the last ones if `isLast`, and does all that they ask for. Nothing
is read any more once the output has ended or failed. -/
def receive (c : Connection) (bytes : List UInt8) (isLast : Bool) : Connection × List Effect :=
  if c.client.isEnded then
    (c, [])
  else
    let (messages, unread, status) := Frame.readAll isLast (c.unread ++ bytes)
    let (client, effects) := c.client.receiveAll messages
    let (client, ending) := match status with
      | .running => (client, [])
      | .closed => client.endOutput none
      | .failed e => client.endOutput (some e)
    let (c, written) := { c with client, unread }.flush
    (c, effects ++ ending ++ written)

/-- Notes that the server takes nothing any more. -/
def hangUp (c : Connection) : Connection :=
  { c with isWritable := false }

end Connection

end EmbeddedMarkup
