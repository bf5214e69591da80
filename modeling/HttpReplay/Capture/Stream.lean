import HttpReplay.Bytes
import HttpReplay.Time.Instant

/-!
# Captured streams

A captured stream is one TCP conversation between a client and a server: what is known of
its two ends, and the bytes that went either way, in chunks, in the order of capture.
-/

namespace HttpReplay

/-- Which way bytes went. -/
inductive Direction
  | clientToServer
  | serverToClient
  deriving Repr, DecidableEq

/-- A short name for a direction, for the log. -/
def Direction.label : Direction → String
  | .clientToServer => "C->S"
  | .serverToClient => "S->C"

/-- Bytes that went one way at one time. -/
structure Chunk where
  direction : Direction
  content : Bytes
  time : Instant
  deriving Repr, DecidableEq

/-- What is known of a stream and its two ends. -/
structure Metadata where
  id : Nat
  clientHost : String := ""
  clientPort : Nat := 0
  serverHost : String
  serverPort : Nat
  protocol : String := ""
  deriving Repr, DecidableEq

/-- A captured conversation. -/
structure Stream where
  metadata : Metadata
  chunks : List Chunk
  deriving Repr, DecidableEq

namespace Stream

/-- The time of the first chunk, if there is one. -/
def firstTime? (s : Stream) : Option Instant := s.chunks.head?.map (·.time)

/-- Everything that went one way. -/
def bytes (s : Stream) (d : Direction) : Bytes :=
  ((s.chunks.filter (·.direction = d)).map (·.content)).flatten

end Stream

/-- **The same capture, cut differently**: in the second list a chunk of the first stands as two
of the same direction, either of which may be empty. -/
inductive Chunk.CutOnce : List Chunk → List Chunk → Prop
  | intro (before after : List Chunk) {whole first second : Chunk} :
    first.direction = whole.direction → second.direction = whole.direction →
    first.content ++ second.content = whole.content →
    CutOnce (before ++ whole :: after) (before ++ first :: second :: after)

end HttpReplay
