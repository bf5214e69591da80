import HttpReplay.Http.Chunked
import HttpReplay.Http.Message

/-!
# Bodies

The fields of a head decide how the body after it is framed, that is, where it ends: by a
length, by the chunked coding, at the end of the stream, or before it begins. The chunked
coding comes before a length. A request without either has no body; a response without
either runs to the end of the stream.

* `HttpReplay.Http.requestFraming?` and `HttpReplay.Http.responseFraming?` decide;
* `HttpReplay.Http.readBody` takes the body off the front of the bytes that have arrived.
-/

namespace HttpReplay.Http

/-- **How a body is framed.** -/
inductive Framing
  | empty
  | length (bytes : Nat)
  | chunked
  | untilEnd
  deriving Repr, DecidableEq

/-! ### What the fields say -/

/-- Does a value of `Transfer-Encoding` end with the chunked coding? -/
def namesChunked (value : Bytes) : Bool :=
  (Bytes.text? value).any fun text =>
    (Text.trim (Text.afterLast ',' text.toList)).map Text.lower == "chunked".toList

/-- Is the body in the chunked coding? -/
def isChunked (fields : List Field) : Bool :=
  fields.any fun f => f.isNamed "transfer-encoding" && namesChunked f.value

/-- The length that a value of `Content-Length` names. -/
def lengthOf? (value : Bytes) : Option Nat :=
  (Bytes.text? value).bind fun text => Numeral.readWord? 10 (Text.trim text.toList)

/-- The framing by the first `Content-Length`, or another where there is none; nothing
where it names no length. -/
def framingByLength? (fields : List Field) (otherwise : Framing) : Option Framing :=
  match fields.find? (·.isNamed "content-length") with
  | none => some otherwise
  | some f => (lengthOf? f.value).map .length

/-- The framing of a request's body; nothing where its length is no length. -/
def requestFraming? (fields : List Field) : Option Framing :=
  if isChunked fields then some .chunked else framingByLength? fields .empty

/-- A response that never has a body: one to a `HEAD` request, an interim response, or one
with status 204 or 304. -/
def isBodiless (status : Nat) (method : Option String) : Bool :=
  method.any (fun m => m.toList.map Text.lower == "head".toList) ||
    (100 ≤ status && status < 200) || status == 204 || status == 304

/-- The framing of the body of a response to a request with the given method; nothing where
its length is no length. -/
def responseFraming? (fields : List Field) (status : Nat) (method : Option String) :
    Option Framing :=
  if isBodiless status method then some .empty
  else if isChunked fields then some .chunked
  else framingByLength? fields .untilEnd

/-! ### Reading the body -/

/-- **The outcome of reading a body.** -/
inductive BodyOutcome
  /-- The body takes so many bytes; what it holds without its coding. -/
  | complete (length : Nat) (decoded : Bytes)
  /-- The bytes end before the body does. -/
  | incomplete
  /-- The bytes are no body of this framing. -/
  | invalid
  deriving Repr, DecidableEq

/-- Read the body at the front of some bytes. At the end of the stream a body that is cut
short is whatever there is of it. -/
def readBody (framing : Framing) (atEnd : Bool) (bytes : Bytes) : BodyOutcome :=
  match framing with
  | .empty => .complete 0 []
  | .length n =>
    if n ≤ bytes.length then .complete n (bytes.take n)
    else if atEnd then .complete bytes.length bytes
    else .incomplete
  | .untilEnd => if atEnd then .complete bytes.length bytes else .incomplete
  | .chunked =>
    match Chunked.decode bytes with
    | .complete n decoded => .complete n decoded
    | .partly decoded => if atEnd then .complete bytes.length decoded else .incomplete
    | .invalid => .invalid

end HttpReplay.Http
