import HttpReplay.Bytes

/-!
# Pending bytes

The bytes of one direction that no message has taken yet stand in a buffer. Beside it
stands a list of spans, which remembers from which chunk each part of the buffer came, so
that it is always known in which chunk a message starts and which chunks are left over
when the direction is given up.

* `HttpReplay.Http.Pending.push` appends a chunk, `HttpReplay.Http.Pending.consume` takes
  bytes off the front, `HttpReplay.Http.Pending.giveUp` drops everything;
* `HttpReplay.Http.Pending.startChunk?` is the chunk of the first byte.
-/

namespace HttpReplay.Http

/-- The part of a chunk that still stands in a buffer: so many of its last bytes. -/
structure Span where
  chunk : Nat
  remaining : Nat
  deriving Repr, DecidableEq

/-- **The bytes of one direction** that no message has taken. -/
structure Pending where
  buffer : Bytes := []
  spans : List Span := []
  /-- The direction has been given up: its chunks are left alone. -/
  gaveUp : Bool := false
  deriving Repr, DecidableEq

namespace Pending

/-- Append a chunk. -/
def push (p : Pending) (chunk : Nat) (content : Bytes) : Pending :=
  { p with buffer := p.buffer ++ content, spans := p.spans ++ [⟨chunk, content.length⟩] }

/-- The chunk that holds the first byte; where no byte stands, the first chunk. -/
def startChunk? (p : Pending) : Option Nat :=
  ((p.spans.find? fun s => 0 < s.remaining).or p.spans.head?).map (·.chunk)

/-- The spans that are left when so many bytes are taken off the front. -/
def consumeSpans : Nat → List Span → List Span
  | _, [] => []
  | n, s :: rest =>
    if n < s.remaining then { s with remaining := s.remaining - n } :: rest
    else consumeSpans (n - s.remaining) rest

/-- Take so many bytes off the front. -/
def consume (p : Pending) (n : Nat) : Pending :=
  { p with buffer := p.buffer.drop n, spans := consumeSpans n p.spans }

/-- The chunks of which bytes are pending. -/
def chunksLeft (p : Pending) : List Nat := (p.spans.filter fun s => 0 < s.remaining).map (·.chunk)

/-- Stop reading this direction. -/
def giveUp (_ : Pending) : Pending := { buffer := [], spans := [], gaveUp := true }

end Pending

end HttpReplay.Http
