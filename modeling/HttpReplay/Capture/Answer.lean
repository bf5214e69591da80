import HttpReplay.Capture.Error
import HttpReplay.Capture.Record
import HttpReplay.Sink

/-!
# Writing answers

The answer to a stream is a line for each of its chunks, an empty line, and a line with an
empty object. Behind its last piece the sink that it is written to is flushed.

A sink may fail in any piece of an answer. Which failure it is then depends on the piece: the text
of a record, or what stands around it.

* `HttpReplay.Answer.text` is the whole answer;
* `HttpReplay.Answer.write` writes it to a sink.
-/

namespace HttpReplay

namespace Answer

/-! ### Pieces -/

/-- A piece of an answer, and the failure of a session that cannot write it. -/
structure Piece where
  bytes : Bytes
  failure : IoFault → SessionError
  /-- Is the sink flushed behind it? -/
  flushes : Bool := false

/-- The line end behind a record. -/
def lineEnd : Bytes := [Byte.lf]

/-- What ends an answer: an empty line, and a line with an empty object. -/
def closing : Bytes := Bytes.ascii "\n\x7b\x7d\n"

/-- The pieces of the line of a chunk. -/
def piecesOf (c : Chunk) : List Piece :=
  [{ bytes := Bytes.ofText (String.ofList c.render), failure := .record },
    { bytes := lineEnd, failure := .io }]

/-- The last piece of an answer. -/
def closingPiece : Piece := { bytes := closing, failure := .io, flushes := true }

/-- The pieces of an answer. -/
def pieces (chunks : List Chunk) : List Piece := chunks.flatMap piecesOf ++ [closingPiece]

/-! ### Writing -/

/-- **The whole answer.** -/
def text (chunks : List Chunk) : Bytes := (pieces chunks).flatMap (·.bytes)

/-- Write a piece, and flush the sink if it is to be flushed behind it. -/
def Piece.write (p : Piece) (s : Sink) : Sink.Result SessionError :=
  match s.write p.bytes with
  | (taken, .error fault) => (taken, .error (p.failure fault))
  | (taken, .ok s) =>
    if p.flushes then (taken, s.flush.mapError p.failure) else (taken, .ok s)

/-- Write pieces up to the first that fails. -/
def writePieces (s : Sink) : List Piece → Sink.Result SessionError
  | [] => ([], .ok s)
  | p :: ps =>
    match p.write s with
    | (taken, .error e) => (taken, .error e)
    | (taken, .ok s) =>
      let (more, result) := writePieces s ps
      (taken ++ more, result)

/-- **Write an answer.** -/
def write (s : Sink) (chunks : List Chunk) : Sink.Result SessionError :=
  writePieces s (pieces chunks)

end Answer

end HttpReplay
