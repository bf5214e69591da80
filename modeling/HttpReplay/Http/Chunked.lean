import HttpReplay.Bytes
import HttpReplay.Text.Numeral
import HttpReplay.Text.Space

/-!
# The chunked coding

A body in the chunked coding is a sequence of pieces, each a size line and as many bytes
of data, ended by a piece of size zero and an empty line. A size line holds the size in
hexadecimal digits, which white space may surround and a plus sign may begin, and after a
semicolon anything else. Lines may stand between the last size line and the empty line;
they are dropped.

* `HttpReplay.Http.Chunked.decode` takes a body off the front of the bytes that have
  arrived and says how many bytes it took;
* `HttpReplay.Http.Chunked.Encodes` is the format itself, as a relation between the bytes
  on the wire and the data;
* `HttpReplay.Http.Chunked.encode` writes data in its plainest form.
-/

namespace HttpReplay.Http.Chunked

/-- **The outcome of decoding.** -/
inductive Outcome
  /-- A whole body of so many bytes, and its data. -/
  | complete (consumed : Nat) (decoded : Bytes)
  /-- The bytes end before the body does; the data that has arrived. -/
  | partly (decoded : Bytes)
  /-- No body in this coding begins like the bytes. -/
  | invalid
  deriving Repr, DecidableEq

/-- The outcome with the data of earlier pieces in front. -/
def Outcome.after (data : Bytes) : Outcome → Outcome
  | .complete n rest => .complete n (data ++ rest)
  | .partly rest => .partly (data ++ rest)
  | .invalid => .invalid

/-! ### Size lines -/

/-- The part of a size line that holds the size. -/
def sizeField (line : Bytes) : Bytes := line.takeWhile (· != Byte.semicolon)

/-- The size that a size line names. -/
def size? (line : Bytes) : Option Nat :=
  (Bytes.text? (sizeField line)).bind fun text => Numeral.readWord? 16 (Text.trim text.toList)

/-! ### Decoding -/

/-- How many bytes the lines after the last piece take, up to and with the empty line. -/
def trailer? (bytes : Bytes) : Option Nat :=
  match _h : Bytes.splitCrlf? bytes with
  | none => none
  | some (line, rest) =>
    if line = [] then some 2 else (trailer? rest).map (line.length + 2 + ·)
termination_by bytes.length
decreasing_by
  rw [Bytes.eq_append_of_splitCrlf? _h]
  simp only [List.length_append, List.length_cons]
  omega

/-- Decode from a position on. Positions count 64 bits: a size that reaches beyond them is
refused. -/
def decodeFrom (position : Nat) (bytes : Bytes) : Outcome :=
  match _h : Bytes.splitCrlf? bytes with
  | none => .partly []
  | some (line, rest) =>
    match size? line with
    | none => .invalid
    | some 0 =>
      match trailer? rest with
      | none => .partly []
      | some n => .complete (position + line.length + 2 + n) []
    | some n =>
      let start := position + line.length + 2
      if Numeral.wordLimit ≤ start + n then .invalid
      else
        match _d : rest.drop n with
        | first :: second :: after =>
          if first = Byte.cr ∧ second = Byte.lf then
            (decodeFrom (start + n + 2) after).after (rest.take n)
          else .invalid
        | _ => .partly (rest.take n)
termination_by bytes.length
decreasing_by
  have := congrArg List.length _d
  rw [Bytes.eq_append_of_splitCrlf? _h]
  simp only [List.length_append, List.length_cons, List.length_drop] at this ⊢
  omega

/-- **Decode a body** at the front of some bytes. -/
def decode (bytes : Bytes) : Outcome := decodeFrom 0 bytes

/-! ### The format -/

/-- No carriage return and line feed inside a line. -/
def IsLine (line : Bytes) : Prop := ∀ a b, line ≠ a ++ Byte.cr :: Byte.lf :: b

/-- A line with its end. -/
def withEnd (line : Bytes) : Bytes := line ++ [Byte.cr, Byte.lf]

/-- The lines after the last piece, each with its end, and the empty line. -/
inductive Trailer : Bytes → Prop
  /-- The empty line alone. -/
  | empty : Trailer (withEnd [])
  /-- One more line in front. -/
  | line {line rest : Bytes} : line ≠ [] → IsLine line → Trailer rest →
      Trailer (withEnd line ++ rest)

/-- **The chunked format**: `Encodes wire data` says that `wire` is a body in the chunked
coding whose data is `data`. -/
inductive Encodes : Bytes → Bytes → Prop
  /-- The last piece and what follows it. -/
  | last {line trailer : Bytes} : IsLine line → size? line = some 0 → Trailer trailer →
      Encodes (withEnd line ++ trailer) []
  /-- A piece with data in front of a body. -/
  | piece {line data wire rest : Bytes} : IsLine line → size? line = some data.length →
      data ≠ [] → Encodes wire rest →
      Encodes (withEnd line ++ withEnd data ++ wire) (data ++ rest)

/-! ### Encoding -/

/-- The size line of so many bytes. -/
def sizeLine (n : Nat) : Bytes := Bytes.ascii (String.ofList (Numeral.hex n))

/-- A piece of data with its size line. -/
def encodePiece (data : Bytes) : Bytes := withEnd (sizeLine data.length) ++ withEnd data

/-- **Encode** data that is cut into pieces, none of which should be empty. -/
def encode (pieces : List Bytes) : Bytes :=
  pieces.flatMap encodePiece ++ withEnd (sizeLine 0) ++ withEnd []

end HttpReplay.Http.Chunked
