import HttpReplay.Base64
import HttpReplay.Capture.Stream
import HttpReplay.Json.Members
import HttpReplay.Time.Rfc3339

/-!
# The lines of the protocol

A stream travels as lines, each of which is one JSON value: first what is known of the
stream, then a line for each chunk. The content of a chunk is base64 there, and its time is
an RFC 3339 text.

A line is written as an object with its members in a fixed order. Read are objects with the
members in any order, and lists of the values alone. Of what is known of a stream, the
client's end and the protocol may be missing.

* `HttpReplay.Metadata.render` and `HttpReplay.Chunk.render` write a line, without its end;
* `HttpReplay.Metadata.ofText` reads the first line of a stream;
* `HttpReplay.ChunkRecord.ofText` reads a line of a chunk, whose content is still base64 then.
-/

namespace HttpReplay

open Json (Member required)

/-! ### Directions -/

namespace Direction

/-- The name of a direction in a line. -/
def name : Direction → String
  | .clientToServer => "client-to-server"
  | .serverToClient => "server-to-client"

/-- The direction of a name. -/
def ofName? (name : String) : Option Direction :=
  if name = clientToServer.name then some clientToServer
  else if name = serverToClient.name then some serverToClient
  else none

/-- The written form of a direction. -/
def render (d : Direction) : List Char := Json.renderText d.name.toList

/-- The name of a direction behind its opening quote. -/
def nameTail (cs : List Char) : Except Json.Fault (Direction × List Char) := do
  let (value, rest) ← Json.textTail cs
  match ofName? (String.ofList value) with
  | some d => return (d, rest)
  | none =>
    Json.here (.unknownName (String.ofList value) clientToServer.name serverToClient.name) rest

/-- The direction as the name of the one member of an object, whose value is `null`, behind the
opening bracket. -/
def memberTail (cs : List Char) : Except Json.Fault (Direction × List Char) := do
  let (d, cs) ←
    match Json.skipBlanks cs with
    | [] => Json.past .endInObject []
    | '\x22' :: rest => nameTail rest
    | '}' :: rest => Json.past .valueExpected ('}' :: rest)
    | rest => Json.past .nameExpected rest
  let (_, cs) ← Json.null (← Json.colon cs)
  match Json.skipBlanks cs with
  | [] => Json.here .endInObject []
  | '}' :: rest => return (d, rest)
  | rest => Json.here .valueExpected rest

/-- Read a direction. -/
def read (cs : List Char) : Except Json.Fault (Direction × List Char) :=
  Json.atValue (fun cs =>
    match cs with
    | '\x22' :: rest => nameTail rest
    | '{' :: rest => memberTail rest
    | _ => Json.past .valueExpected cs) cs

/-- The direction that a text holds. -/
def ofText (text : String) : Except Json.Fault Direction := Json.whole read text

end Direction

/-! ### Streams -/

namespace Metadata

/-- **The line of a stream.** -/
def render (m : Metadata) : List Char :=
  Json.renderObject [
    ("StreamID", Numeral.decimal m.id),
    ("ClientHost", Json.renderText m.clientHost.toList),
    ("ClientPort", Numeral.decimal m.clientPort),
    ("ServerHost", Json.renderText m.serverHost.toList),
    ("ServerPort", Numeral.decimal m.serverPort),
    ("Protocol", Json.renderText m.protocol.toList)]

/-- The members of a stream's line as far as they are known. -/
structure Draft where
  id : Option Nat := none
  clientHost : Option String := none
  clientPort : Option Nat := none
  serverHost : Option String := none
  serverPort : Option Nat := none
  protocol : Option String := none

/-- The number of a stream. -/
def readId : List Char → Except Json.Fault (Nat × List Char) :=
  Json.natural "u64" Numeral.wordLimit

/-- A port. -/
def readPort : List Char → Except Json.Fault (Nat × List Char) :=
  Json.natural "u16" (Numeral.capacity 16)

/-- The members by name. -/
def Draft.step (d : Draft) (name : String) : Member Draft :=
  match name with
  | "StreamID" => .once name d.id readId fun a => { d with id := some a }
  | "ClientHost" => .once name d.clientHost Json.text fun a => { d with clientHost := some a }
  | "ClientPort" => .once name d.clientPort readPort fun a => { d with clientPort := some a }
  | "ServerHost" => .once name d.serverHost Json.text fun a => { d with serverHost := some a }
  | "ServerPort" => .once name d.serverPort readPort fun a => { d with serverPort := some a }
  | "Protocol" => .once name d.protocol Json.text fun a => { d with protocol := some a }
  | _ => .skip

/-- The stream of a draft; the client's end and the protocol may be missing. -/
def Draft.finish (d : Draft) : Except Json.Cause Metadata := do
  let id ← required "StreamID" d.id
  let serverHost ← required "ServerHost" d.serverHost
  let serverPort ← required "ServerPort" d.serverPort
  return { id, serverHost, serverPort,
           clientHost := d.clientHost.getD "",
           clientPort := d.clientPort.getD 0,
           protocol := d.protocol.getD "" }

/-- The elements of a stream's line as a list. -/
def readElements (cs : List Char) : Except Json.Fault (Metadata × List Char) := do
  let expected := "struct StreamMetadata with 6 elements"
  let (id, cs) ← Json.needed 0 expected readId cs
  let (clientHost, cs) ← Json.element false Json.text cs
  let (clientPort, cs) ← Json.element false readPort cs
  let (serverHost, cs) ← Json.needed 3 expected Json.text cs
  let (serverPort, cs) ← Json.needed 4 expected readPort cs
  let (protocol, cs) ← Json.element false Json.text cs
  return ({ id, serverHost, serverPort,
            clientHost := clientHost.getD "",
            clientPort := clientPort.getD 0,
            protocol := protocol.getD "" }, cs)

/-- How the line of a stream is read. -/
def shape : Json.RecordShape Draft Metadata where
  expected := "struct StreamMetadata"
  empty := {}
  step := Draft.step
  finish := Draft.finish
  elements := readElements

/-- **Read the line of a stream.** -/
def ofText (text : String) : Except Json.Fault Metadata := Json.whole (Json.record shape) text

end Metadata

/-! ### Chunks -/

/-- A chunk as its line holds it: the content is base64. -/
structure ChunkRecord where
  direction : Direction
  content : String
  time : Instant
  deriving Repr, DecidableEq

namespace ChunkRecord

/-- The line of a chunk, of which the content is base64 already. -/
def render (r : ChunkRecord) : List Char :=
  Json.renderObject [
    ("Direction", r.direction.render),
    ("Content", Json.renderText r.content.toList),
    ("Time", Json.renderText (Rfc3339.render r.time))]

/-- The members of a chunk's line as far as they are known. -/
structure Draft where
  direction : Option Direction := none
  content : Option String := none
  time : Option Instant := none

/-- The time of a chunk. -/
def readTime (cs : List Char) : Except Json.Fault (Instant × List Char) := do
  let (value, rest) ← Json.textOf "an RFC 3339 formatted date and time string" cs
  match Rfc3339.read value with
  | .ok t => return (t, rest)
  | .error e => Json.here (.badText e.message) rest

/-- The members by name. -/
def Draft.step (d : Draft) (name : String) : Member Draft :=
  match name with
  | "Direction" => .once name d.direction Direction.read fun a => { d with direction := some a }
  | "Content" => .once name d.content Json.text fun a => { d with content := some a }
  | "Time" => .once name d.time readTime fun a => { d with time := some a }
  | _ => .skip

/-- The record of a draft, which may lack nothing. -/
def Draft.finish (d : Draft) : Except Json.Cause ChunkRecord := do
  let direction ← required "Direction" d.direction
  let content ← required "Content" d.content
  let time ← required "Time" d.time
  return { direction, content, time }

/-- The elements of a chunk's line as a list. -/
def readElements (cs : List Char) : Except Json.Fault (ChunkRecord × List Char) := do
  let expected := "struct ChunkRecord with 3 elements"
  let (direction, cs) ← Json.needed 0 expected Direction.read cs
  let (content, cs) ← Json.needed 1 expected Json.text cs
  let (time, cs) ← Json.needed 2 expected readTime cs
  return ({ direction, content, time }, cs)

/-- How the line of a chunk is read. -/
def shape : Json.RecordShape Draft ChunkRecord where
  expected := "struct ChunkRecord"
  empty := {}
  step := Draft.step
  finish := Draft.finish
  elements := readElements

/-- **Read the line of a chunk.** -/
def ofText (text : String) : Except Json.Fault ChunkRecord := Json.whole (Json.record shape) text

/-- The chunk of a record. -/
def chunk (r : ChunkRecord) : Except Base64.Error Chunk := do
  let content ← Base64.decode (Bytes.ofText r.content)
  return ⟨r.direction, content, r.time⟩

end ChunkRecord

/-- The record of a chunk. -/
def Chunk.record (c : Chunk) : ChunkRecord :=
  ⟨c.direction, String.ofList (Base64.encode c.content), c.time⟩

/-- **The line of a chunk.** -/
def Chunk.render (c : Chunk) : List Char := c.record.render

end HttpReplay
