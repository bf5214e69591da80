import HttpReplay.Http.Body
import HttpReplay.Http.Head

/-!
# Messages on the wire

This file is the other side of reading: how a well-behaved client and a well-behaved server put
their messages on the wire. A message is its first line, a line for each field, an empty line,
and the body in the coding that it is sent in. The coding adds the field that announces it.

* `HttpReplay.Http.Coding` is a body with the way it is sent;
* `HttpReplay.Http.SentRequest` and `HttpReplay.Http.SentResponse` are messages as they are
  sent, `wire` is what they put on the wire and `message` what a reader should make of it;
* `HttpReplay.Http.Exchange` is a request with the responses to it.
-/

namespace HttpReplay

/-- Does a field announce how a body is framed? -/
def Field.announces (f : Field) : Bool :=
  f.isNamed "content-length" || f.isNamed "transfer-encoding"

namespace Http

/-! ### Bodies -/

/-- **A body** and the way it is sent. -/
inductive Coding
  /-- There is none. -/
  | none
  /-- Its length is announced. -/
  | counted (data : Bytes)
  /-- It is sent in pieces. -/
  | chunked (pieces : List Bytes)
  /-- It ends with the stream. -/
  | untilEnd (data : Bytes)
  deriving Repr, DecidableEq

namespace Coding

/-- What the body holds. -/
def data : Coding → Bytes
  | none => []
  | counted data => data
  | chunked pieces => pieces.flatten
  | untilEnd data => data

/-- The field that announces the coding, if one has to: its name and its value. -/
def announcement? : Coding → Option (String × Bytes)
  | counted data =>
    some ("content-length", Bytes.ascii (String.ofList (Numeral.decimal data.length)))
  | chunked _ => some ("transfer-encoding", Bytes.ascii "chunked")
  | _ => Option.none

/-- **The fields announce the coding** and no other: one of them is the announcement, in letters of
either case, wherever it stands. -/
def IsAnnouncedBy (c : Coding) (fields : List Field) : Prop :=
  match c.announcement? with
  | Option.none => ∀ f ∈ fields, ¬ f.announces
  | some (name, value) =>
    ∃ before f after, fields = before ++ f :: after ∧ f.isNamed name ∧ f.value = value ∧
      ∀ g ∈ before ++ after, ¬ g.announces

/-- What the body puts on the wire. -/
def wire : Coding → Bytes
  | none => []
  | counted data => data
  | chunked pieces => Chunked.encode pieces
  | untilEnd data => data

/-- A body that can be sent: a piece that is sent is not empty, and lengths fit in 64 bits. -/
def IsSendable : Coding → Prop
  | none => True
  | counted data => data.length < Numeral.wordLimit
  | chunked pieces => (∀ p ∈ pieces, p ≠ []) ∧ (Chunked.encode pieces).length < Numeral.wordLimit
  | untilEnd _ => True

end Coding

/-! ### Heads -/

/-- A line and its end. -/
def lineOf (line : Bytes) : Bytes := line ++ [Byte.cr, Byte.lf]

/-- The line of a field. -/
def fieldLineOf (f : Field) : Bytes := lineOf (f.name ++ Byte.colon :: Byte.sp :: f.value)

/-- The name of a version of the protocol. -/
def versionWord (minor : Nat) : Bytes :=
  if minor = 0 then Bytes.ascii "HTTP/1.0" else Bytes.ascii "HTTP/1.1"

/-- The three digits of a status. -/
def statusWord (status : Nat) : Bytes :=
  [status / 100, status / 10 % 10, status % 10].map fun d => (48 + d).toUInt8

/-- A head: its first line, its fields, and the empty line. -/
def headOf (first : Bytes) (fields : List Field) : Bytes :=
  lineOf first ++ fields.flatMap fieldLineOf ++ lineOf []

/-- **A field that can be sent**: its name is a token, and its value is text with no blanks around
it. -/
def IsSendableField (f : Field) : Prop :=
  f.name ≠ [] ∧ f.name.all isToken ∧
    f.value.all isFieldText ∧ Bytes.trimBy Byte.isBlank f.value = f.value

instance (f : Field) : Decidable (IsSendableField f) := inferInstanceAs (Decidable (_ ∧ _))

/-! ### Requests -/

/-- **A request as it is sent.** -/
structure SentRequest where
  method : Bytes
  target : Bytes
  /-- The minor version: one for HTTP/1.1, zero for HTTP/1.0. -/
  version : Nat
  /-- All fields, those that announce the body among them. -/
  fields : List Field
  body : Coding
  deriving Repr, DecidableEq

namespace SentRequest

/-- The first line. -/
def firstLine (r : SentRequest) : Bytes :=
  r.method ++ Byte.sp :: r.target ++ Byte.sp :: versionWord r.version

/-- The head. -/
def head (r : SentRequest) : Bytes := headOf r.firstLine r.fields

/-- What the request puts on the wire. -/
def wire (r : SentRequest) : Bytes := r.head ++ r.body.wire

/-- What it says. -/
def message (r : SentRequest) : Request where
  method := Bytes.latin1 r.method
  path := Bytes.latin1 r.target
  version := r.version
  headers := Field.toHeaders r.fields
  body := r.body.data

/-- **A request that can be sent**: the target is visible ASCII, there is room for the fields, they
announce the body, and its end shows. -/
structure IsSendable (r : SentRequest) : Prop where
  method_ne_nil : r.method ≠ []
  method_token : r.method.all isToken
  target_ne_nil : r.target ≠ []
  target_visible : r.target.all fun b => 33 ≤ b && b ≤ 126
  version_le : r.version ≤ 1
  fields_le : r.fields.length ≤ mostFields
  fields_sendable : ∀ f ∈ r.fields, IsSendableField f
  body_sendable : r.body.IsSendable
  body_announced : r.body.IsAnnouncedBy r.fields
  body_ends : ∀ data, r.body ≠ .untilEnd data

end SentRequest

/-! ### Responses -/

/-- **A response as it is sent.** -/
structure SentResponse where
  /-- The minor version: one for HTTP/1.1, zero for HTTP/1.0. -/
  version : Nat
  status : Nat
  reason : Bytes
  fields : List Field
  body : Coding
  deriving Repr, DecidableEq

namespace SentResponse

/-- The first line. -/
def firstLine (r : SentResponse) : Bytes :=
  versionWord r.version ++ Byte.sp :: statusWord r.status ++ Byte.sp :: r.reason

/-- The head. -/
def head (r : SentResponse) : Bytes := headOf r.firstLine r.fields

/-- What the response puts on the wire. -/
def wire (r : SentResponse) : Bytes := r.head ++ r.body.wire

/-- What it says. -/
def message (r : SentResponse) : Response where
  version := r.version
  status := r.status
  reason := Bytes.latin1 r.reason
  headers := Field.toHeaders r.fields
  body := r.body.data

/-- **A response that can be sent**: the reason is printable ASCII and there is room for the
fields. -/
structure IsSendable (r : SentResponse) : Prop where
  version_le : r.version ≤ 1
  status_ge : 100 ≤ r.status
  status_lt : r.status < 1000
  reason_printable : r.reason.all fun b => 32 ≤ b && b ≤ 126
  fields_le : r.fields.length ≤ mostFields
  fields_sendable : ∀ f ∈ r.fields, IsSendableField f
  body_sendable : r.body.IsSendable

/-- An interim response, after which another one follows; the status 101 is none. -/
def IsInterim (r : SentResponse) : Prop := r.status < 200 ∧ r.status ≠ 101 ∧ r.body = .none

/-- A response that never has a body: one to a `HEAD` request, whatever the case of its letters, or
one with status 204 or 304. -/
def IsBare (r : SentResponse) (method : Bytes) : Prop :=
  Bytes.eqIgnoringCase method (Bytes.ascii "HEAD") ∨ r.status = 204 ∨ r.status = 304

instance (r : SentResponse) (method : Bytes) : Decidable (r.IsBare method) :=
  inferInstanceAs (Decidable (_ ∨ _))

/-- A final response to a request with the given method: it has no body where it cannot have one,
and elsewhere a body that the fields announce or that ends with the stream. -/
def IsFinal (r : SentResponse) (method : Bytes) : Prop :=
  200 ≤ r.status ∧
    if r.IsBare method then r.body = .none else r.body ≠ .none ∧ r.body.IsAnnouncedBy r.fields

/-- Does the body end with the stream? -/
def endsWithStream (r : SentResponse) : Bool :=
  match r.body with
  | .untilEnd _ => true
  | _ => false

end SentResponse

/-! ### Exchanges -/

/-- **A request and the responses to it**, of which only the last is final. -/
structure Exchange where
  request : SentRequest
  interim : List SentResponse
  final : SentResponse
  deriving Repr, DecidableEq

namespace Exchange

/-- The responses, in order. -/
def responses (e : Exchange) : List SentResponse := e.interim ++ [e.final]

/-- **An exchange that can be sent**: the responses before the final one are interim. -/
structure IsSendable (e : Exchange) : Prop where
  request : e.request.IsSendable
  interim : ∀ r ∈ e.interim, r.IsSendable ∧ r.IsInterim
  final : e.final.IsSendable
  answers : e.final.IsFinal e.request.method

/-- What the server puts on the wire before the final response. -/
def beforeFinal (e : Exchange) : Bytes := e.interim.flatMap SentResponse.wire

/-- What the server puts on the wire. -/
def responseWire (e : Exchange) : Bytes := e.responses.flatMap SentResponse.wire

end Exchange

end Http

end HttpReplay
