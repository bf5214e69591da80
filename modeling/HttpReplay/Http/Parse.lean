import HttpReplay.Http.Body
import HttpReplay.Http.LenientHead

/-!
# Reading whole messages

A message is its head and the body that the head announces. Reading one off the front of
the bytes that have arrived has three outcomes: the message is there, more bytes are
needed, or the bytes are no message, and then for what reason.

At the end of the stream no more bytes come. A body may then be cut short; a head may not.

* `HttpReplay.Http.parseRequest` and `HttpReplay.Http.parseResponse` read a message;
* `HttpReplay.Http.requestsOf` reads all the requests of a whole stream;
* `HttpReplay.Http.Reason.message` words why bytes are left alone.
-/

namespace HttpReplay.Http

/-- Why the bytes of a direction are left alone from some point on. -/
inductive Reason
  /-- They do not begin with a head. -/
  | head (why : Refusal)
  /-- A head announces a body by a length that is none. -/
  | badLength
  /-- A body announced as chunked is not. -/
  | badChunks
  /-- The stream ends within the head of a request. -/
  | truncatedRequest
  /-- The stream ends within the head of a response. -/
  | truncatedResponse
  /-- The server has switched to another protocol. -/
  | switched
  deriving Repr, DecidableEq

/-- The wording of a reason. -/
def Reason.message : Reason → String
  | .head why => why.message
  | .badLength => "bad Content-Length"
  | .badChunks => "bad chunked body"
  | .truncatedRequest => "truncated request head"
  | .truncatedResponse => "truncated response head"
  | .switched => "protocol switched"

/-- **The outcome of reading a message.** -/
inductive Parsed (μ : Type)
  /-- A message whose head and body take so many bytes. -/
  | complete (headLength bodyLength : Nat) (message : μ)
  /-- The bytes end before the message does. -/
  | incomplete
  /-- The bytes are no message. -/
  | invalid (why : Reason)
  deriving Repr, DecidableEq

variable {μ : Type}

/-- The body that follows a head of the given length. -/
def parseBody (framing : Option Framing) (atEnd : Bool) (headLength : Nat) (rest : Bytes)
    (message : Bytes → μ) : Parsed μ :=
  match framing with
  | none => .invalid .badLength
  | some framing =>
    match readBody framing atEnd rest with
    | .complete length decoded => .complete headLength length (message decoded)
    | .incomplete => .incomplete
    | .invalid => .invalid .badChunks

/-! ### Requests -/

/-- The request with a given head and body. -/
def RequestHead.withBody (head : RequestHead) (body : Bytes) : Request where
  method := head.method
  path := head.path
  version := head.version
  headers := Field.toHeaders head.fields
  body := body

/-- The refusals after which a request is read again by the lenient rules. -/
def Refusal.allowsLenience : Refusal → Bool
  | .token | .headerName | .headerValue | .newLine => true
  | .version | .status | .tooManyHeaders => false

/-- The head of a request, by the strict rules and then by the lenient ones. -/
def anyRequestHead (bytes : Bytes) : Scan RequestHead :=
  match requestHeadWidening bytes with
  | .refused why => if why.allowsLenience then Lenient.requestHead why bytes else .refused why
  | outcome => outcome

/-- **Read a request** off the front of some bytes. -/
def parseRequest (atEnd : Bool) (bytes : Bytes) : Parsed Request :=
  match anyRequestHead bytes with
  | .more => .incomplete
  | .refused why => .invalid (.head why)
  | .done head rest =>
    parseBody (requestFraming? head.fields) atEnd (bytes.length - rest.length) rest head.withBody

/-! ### Responses -/

/-- The response with a given head and body. -/
def ResponseHead.withBody (head : ResponseHead) (body : Bytes) : Response where
  version := head.version
  status := head.status
  reason := head.reason
  headers := Field.toHeaders head.fields
  body := body

/-- **Read a response** to a request with the given method off the front of some bytes. -/
def parseResponse (atEnd : Bool) (method : Option String) (bytes : Bytes) : Parsed Response :=
  match responseHeadWidening bytes with
  | .more => .incomplete
  | .refused why => .invalid (.head why)
  | .done head rest =>
    parseBody (responseFraming? head.fields head.status method) atEnd
      (bytes.length - rest.length) rest head.withBody

/-! ### Every message takes a byte -/

/-- A message that is read off bytes that are there takes a byte of them for its head. -/
def Parsed.TakesByte (bytes : Bytes) (p : Parsed μ) : Prop :=
  ∀ h b m, p = .complete h b m → bytes ≠ [] → 0 < h

theorem takesByte_parseBody {framing : Option Framing} {atEnd : Bool} {bytes rest : Bytes}
    {message : Bytes → μ} (h : rest.length ≤ bytes.length - 1) :
    (parseBody framing atEnd (bytes.length - rest.length) rest message).TakesByte bytes := by
  intro n b m hp hne
  have hpos : 0 < bytes.length := List.length_pos_iff.mpr hne
  unfold parseBody at hp
  split at hp
  · simp at hp
  · split at hp
    · simp only [Parsed.complete.injEq] at hp
      omega
    · simp at hp
    · simp at hp

theorem leaves_anyRequestHead (bytes : Bytes) :
    (anyRequestHead bytes).Leaves (bytes.length - 1) := by
  unfold anyRequestHead
  split
  · split
    · exact Lenient.leaves_requestHead _ _
    · exact Scan.leaves_refused
  · exact leaves_requestHeadWidening bytes

theorem takesByte_parseRequest (atEnd : Bool) (bytes : Bytes) :
    (parseRequest atEnd bytes).TakesByte bytes := by
  unfold parseRequest
  split
  · simp [Parsed.TakesByte]
  · simp [Parsed.TakesByte]
  · rename_i head rest hd
    exact takesByte_parseBody (leaves_anyRequestHead bytes head rest hd)

theorem takesByte_parseResponse (atEnd : Bool) (method : Option String) (bytes : Bytes) :
    (parseResponse atEnd method bytes).TakesByte bytes := by
  unfold parseResponse
  split
  · simp [Parsed.TakesByte]
  · simp [Parsed.TakesByte]
  · rename_i head rest hd
    exact takesByte_parseBody (leaves_responseHeadWidening bytes head rest hd)

/-! ### All requests -/

/-- A message and the bytes of its head and of its body that it was read from. -/
structure Taken (μ : Type) where
  head : Bytes
  raw : Bytes
  message : μ
  deriving Repr, DecidableEq

/-- **The requests of a whole stream**: everything that the client sent is there from the start,
and one request is read after the other until what is left is none. -/
def requestsOf (bytes : Bytes) : List (Taken Request) :=
  if _hb : bytes = [] then []
  else
    match _h : parseRequest true bytes with
    | .complete headLength bodyLength message =>
      ⟨bytes.take headLength, (bytes.drop headLength).take bodyLength, message⟩ ::
        requestsOf (bytes.drop (headLength + bodyLength))
    | _ => []
termination_by bytes.length
decreasing_by
  have := takesByte_parseRequest _ _ _ _ _ _h _hb
  have := List.length_pos_iff.mpr _hb
  rw [List.length_drop]
  omega

end HttpReplay.Http
