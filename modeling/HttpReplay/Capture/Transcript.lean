import HttpReplay.Capture.Reader

/-!
# Transcripts

A transcript is an input as it is meant to be: the lines of each stream, one after the other,
with blank lines before, between and behind the streams. A line ends with a line feed, before
which a carriage return may stand.

* `HttpReplay.Stream.lines` are the lines of a stream;
* `HttpReplay.Transcript` says that lines hold streams, and in which order.
-/

namespace HttpReplay

/-- **The lines of a stream**: what is known of it, and its chunks. -/
def Stream.lines (s : Stream) : List (List Char) := s.metadata.render :: s.chunks.map Chunk.render

/-- A line of an input and how it ends. -/
structure InputLine where
  text : List Char
  /-- Does a carriage return stand before the line feed? -/
  hasReturn : Bool
  deriving Repr, DecidableEq

namespace InputLine

/-- A line that holds nothing but white space. -/
def IsBlank (l : InputLine) : Prop := l.text.all Text.isSpace ∧ '\n' ∉ l.text

/-- The bytes of a line with its end. -/
def bytes (l : InputLine) : Bytes :=
  Bytes.ofText (String.ofList l.text) ++ (if l.hasReturn then [Byte.cr, Byte.lf] else [Byte.lf])

/-- The bytes of lines. -/
def bytesOf (lines : List InputLine) : Bytes := lines.flatMap bytes

end InputLine

/-- **Lines that hold streams.** A blank line stands behind every stream but the last, which may
end with the input, and blank lines may stand anywhere between streams. -/
inductive Transcript : List InputLine → List Stream → Prop
  /-- Nothing holds no stream. -/
  | nil : Transcript [] []
  /-- A blank line in front changes nothing. -/
  | blank {l : InputLine} {lines : List InputLine} {streams : List Stream} :
    l.IsBlank → Transcript lines streams → Transcript (l :: lines) streams
  /-- A stream and a blank line behind it. -/
  | stream {s : Stream} {own : List InputLine} {l : InputLine} {lines : List InputLine}
    {streams : List Stream} :
    own.map (·.text) = s.lines → l.IsBlank → Transcript lines streams →
    Transcript (own ++ l :: lines) (s :: streams)
  /-- A stream that ends with the input. -/
  | last {s : Stream} {own : List InputLine} : own.map (·.text) = s.lines → Transcript own [s]

end HttpReplay
