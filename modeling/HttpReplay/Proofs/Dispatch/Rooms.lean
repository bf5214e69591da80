import HttpReplay.Proofs.Dispatch.Openings
import HttpReplay.Proofs.Http.SentMessages

/-!
# Making room does not show

A head is read with room for a few field lines first, and with more and more room as long as there
is too little. What comes out of it is what one attempt with all the room makes of the same bytes
(`HttpReplay.Http.parseRequest_eq_parseRequestIn`,
`HttpReplay.Http.parseResponse_eq_parseResponseIn`), the refusals that send a request to the
lenient rules among it: an attempt with less room gives the answer of the last one or has no room.

So the number of field lines decides alone what becomes of a request in the grammar of heads. If
there is room for all of them it is dispatched with all of them, and else it is refused, and the
client's direction is passed through from its chunk on (`HttpReplay.Http.dispatches_within_room`).
-/

namespace HttpReplay.Http

open Event Scan

/-! ### Single attempts -/

/-- The head of a request, by the strict rules with room for so many field lines, and then by the
lenient ones. -/
def anyRequestHeadIn (room : Nat) (bytes : Bytes) : Scan RequestHead :=
  match requestHead room bytes with
  | .refused why => if why.allowsLenience then Lenient.requestHead why bytes else .refused why
  | outcome => outcome

/-- **A single attempt at a request** with room for so many field lines. -/
def parseRequestIn (room : Nat) (atEnd : Bool) (bytes : Bytes) : Parsed Request :=
  parseBy (anyRequestHeadIn room) (fun head => requestFraming? head.fields) RequestHead.withBody
    atEnd bytes

/-- **A single attempt at a response** with room for so many field lines. -/
def parseResponseIn (room : Nat) (atEnd : Bool) (method : Option String) (bytes : Bytes) :
    Parsed Response :=
  parseBy (responseHead room) (fun head => responseFraming? head.fields head.status method)
    ResponseHead.withBody atEnd bytes

theorem anyRequestHead_eq (bytes : Bytes) :
    anyRequestHead bytes = anyRequestHeadIn mostFields bytes := by
  cases hhead : requestHead mostFields bytes <;>
    simp only [anyRequestHead, anyRequestHeadIn, requestHeadWidening_eq, hhead]

/-- **Requests are read as in one attempt** with the most room. -/
theorem parseRequest_eq_parseRequestIn (atEnd : Bool) (bytes : Bytes) :
    parseRequest atEnd bytes = parseRequestIn mostFields atEnd bytes := by
  rw [parseRequest_eq, parseRequestIn, funext anyRequestHead_eq]

/-- **Responses are read as in one attempt** with the most room. -/
theorem parseResponse_eq_parseResponseIn (atEnd : Bool) (method : Option String) (bytes : Bytes) :
    parseResponse atEnd method bytes = parseResponseIn mostFields atEnd method bytes := by
  rw [parseResponse_eq, parseResponseIn, funext responseHeadWidening_eq]

/-! ### Heads of many lines -/

section Heads

variable {head : Bytes} {parsed : RequestHead}

theorem IsRequestHead.anyRequestHead_of_le (h : IsRequestHead head parsed)
    (hle : parsed.fields.length ≤ mostFields) (rest : Bytes) :
    anyRequestHead (head ++ rest) = .done parsed rest := by
  rw [anyRequestHead_eq, anyRequestHeadIn, h.read, if_pos hle]

/-- A want of room is no refusal that the lenient rules make up for. -/
theorem IsRequestHead.anyRequestHead_of_lt (h : IsRequestHead head parsed)
    (hlt : mostFields < parsed.fields.length) (rest : Bytes) :
    anyRequestHead (head ++ rest) = .refused .tooManyHeaders := by
  rw [anyRequestHead_eq, anyRequestHeadIn, h.read, if_neg (Nat.not_le_of_lt hlt)]
  rfl

theorem IsRequestHead.parseRequest_of_lt (h : IsRequestHead head parsed)
    (hlt : mostFields < parsed.fields.length) (atEnd : Bool) (rest : Bytes) :
    parseRequest atEnd (head ++ rest) = .invalid (.head .tooManyHeaders) := by
  rw [parseRequest_eq, parseBy_of_refused (h.anyRequestHead_of_lt hlt rest)]

theorem IsRequestHead.ne_nil (h : IsRequestHead head parsed) : head ≠ [] := by
  rintro rfl
  have hread := h.read parsed.fields.length []
  rw [List.append_nil, if_pos (Nat.le_refl _), requestHead, emptyLines.eq_def] at hread
  cases hread

/-- Fields that announce no body leave a request without one. -/
theorem requestFraming?_of_forall {fields : List Field} (h : ∀ f ∈ fields, ¬ f.announces) :
    requestFraming? fields = some .empty :=
  @framing_of_announced fields .none .empty trivial h fun _ => rfl

/-- **A request that there is room for** is the first one, with all its fields. -/
theorem IsRequestHead.requestsOf_of_le (h : IsRequestHead head parsed)
    (hnone : ∀ f ∈ parsed.fields, ¬ f.announces) (hle : parsed.fields.length ≤ mostFields)
    (rest : Bytes) :
    requestsOf (head ++ rest) = ⟨head, [], parsed.withBody []⟩ :: requestsOf rest := by
  have hbody : readBody .empty true ([] ++ rest) = .complete ([] : Bytes).length [] := rfl
  exact requestsOf_of_head_body (h.anyRequestHead_of_le hle ([] ++ rest))
    (requestFraming?_of_forall hnone) hbody

/-- It is whole without the end of the stream. -/
theorem IsRequestHead.not_isCut (h : IsRequestHead head parsed)
    (hnone : ∀ f ∈ parsed.fields, ¬ f.announces) (hle : parsed.fields.length ≤ mostFields) :
    ¬ (⟨head, [], parsed.withBody []⟩ : Taken Request).IsCut := by
  have hread := h.anyRequestHead_of_le hle []
  rw [Taken.IsCut, Taken.wire, parseRequest_eq, parseBy_of_done hread,
    requestFraming?_of_forall hnone]
  simp [parseBody, readBody]

end Heads

/-! ### Streams with heads of many lines -/

/-- **The number of field lines decides** what becomes of a request, and how the room for them is
made does not show.

Whatever the bytes, the end of the stream and the method of the request, a message is read as in one
attempt with the most room. In the client's bytes of a stream let a head of the grammar, none of
whose fields announces a body, stand behind some requests. If there is room for its field lines, it
is dispatched, with all its fields, and so are the requests behind it. If there is not, it is
refused, the requests in front of it are all that are dispatched, and the chunks with bytes of the
head and behind it are left over; they are all the client's that are, unless the server switches the
protocol before. -/
theorem dispatches_within_room :
    (∀ atEnd bytes, parseRequest atEnd bytes = parseRequestIn mostFields atEnd bytes) ∧
    (∀ atEnd method bytes,
      parseResponse atEnd method bytes = parseResponseIn mostFields atEnd method bytes) ∧
    ∀ {stream : Stream} {before head rest : Bytes} {parsed : RequestHead}
      {early more : List (Taken Request)},
      IsRequestHead head parsed → (∀ f ∈ parsed.fields, ¬ f.announces) →
      stream.bytes .clientToServer = before ++ (head ++ rest) →
      requestsOf (stream.bytes .clientToServer) = early ++ more →
      early.flatMap Taken.wire = before →
      (parsed.fields.length ≤ mostFields →
        ¬ (⟨head, [], parsed.withBody []⟩ : Taken Request).IsCut ∧
        Dispatches stream (early ++ ⟨head, [], parsed.withBody []⟩ :: requestsOf rest)) ∧
      (mostFields < parsed.fields.length →
        (∀ atEnd, parseRequest atEnd (head ++ rest) = .invalid (.head .tooManyHeaders)) ∧
        Dispatches stream early ∧
        ∀ i chunk, stream.chunks[i]? = some chunk → chunk.direction = .clientToServer →
          chunk.content ≠ [] →
          (before.length < (stream.bytesBefore .clientToServer (i + 1)).length →
            i ∈ (dispatch stream).leftOver) ∧
          ((dispatch stream).events.any switches = false → i ∈ (dispatch stream).leftOver →
            before.length < (stream.bytesBefore .clientToServer (i + 1)).length)) := by
  refine ⟨parseRequest_eq_parseRequestIn, parseResponse_eq_parseResponseIn, ?_⟩
  intro stream before head rest parsed early more hhead hnone hb hall hearly
  have hne : head ++ rest ≠ [] := by simp [hhead.ne_nil]
  have hbehind := (requestsOf_behind (hb ▸ hall) hearly hne).2
  refine ⟨fun hle => ⟨hhead.not_isCut hnone hle, ?_⟩, fun hlt => ?_⟩
  · rw [← hhead.requestsOf_of_le hnone hle, ← hbehind, ← hb]
    exact dispatches stream
  · have hread := fun atEnd => hhead.parseRequest_of_lt hlt atEnd rest
    have hstop : requestsOf (stream.bytes .clientToServer) = early := by
      rw [hb, hbehind, requestsOf_of_ne_complete (by simp [hread true]), List.append_nil]
    have hdispatches : Dispatches stream early := hstop ▸ dispatches stream
    refine ⟨hread, hdispatches, fun i chunk hc hd hcontent => ?_⟩
    have hleft := mem_leftOver_dispatch hc
    rw [if_neg hcontent, hd, wireOf_client] at hleft
    refine ⟨fun hi => hleft.mpr (Nat.lt_of_le_of_lt ?_ hi), fun hno hi => ?_⟩
    · -- The run takes the first of the requests in front, so it takes no more bytes than they.
      obtain ⟨later, hlater⟩ := hdispatches.taken
      rw [← hearly, ← hlater, List.flatMap_append, List.length_append]
      exact Nat.le_add_right _ _
    · rw [← hearly, ← hdispatches.all hno]
      exact hleft.mp hi

/-- The head of a request with so many fields. -/
def manyFieldsHead (n : Nat) : Bytes :=
  headOf (Bytes.ascii "GET /many HTTP/1.1") (List.replicate n ⟨Bytes.ascii "X", Bytes.ascii "y"⟩)

theorem isRequestHead_manyFieldsHead (n : Nat) :
    IsRequestHead (manyFieldsHead n)
      ⟨"GET", "/many", 1, List.replicate n ⟨Bytes.ascii "X", Bytes.ascii "y"⟩⟩ := by
  have hsendable : ∀ f ∈ List.replicate n (⟨Bytes.ascii "X", Bytes.ascii "y"⟩ : Field),
      IsSendableField f := by
    intro f hf
    rw [List.eq_of_mem_replicate hf]
    decide +kernel
  have hline : IsRequestLine
      (Bytes.ascii "GET" ++ Byte.sp :: (Bytes.ascii "/many" ++ Byte.sp ::
        (versionWord 1 ++ [Byte.cr, Byte.lf]))) (Bytes.ascii "GET", "/many", 1) :=
    .words (by decide +kernel) (by decide +kernel) (by decide +kernel) (by decide +kernel)
      (by decide +kernel) (Nat.le_refl 1) (Or.inr rfl)
  have hhead := IsRequestHead.lines hline (isFieldLines_of_sent hsendable)
  rw [manyFieldsHead, headOf, List.append_assoc]
  exact hhead

/-- A request, and one with so many fields behind it. -/
def manyFields (n : Nat) : Stream where
  metadata := { id := 1, serverHost := "192.0.2.1", serverPort := 80 }
  chunks := [
    ⟨.clientToServer, Bytes.ascii "GET / HTTP/1.1\r\n\r\n", ⟨0, 0⟩⟩,
    ⟨.clientToServer, manyFieldsHead n, ⟨1, 0⟩⟩]

/-- The request in front. -/
def requestInFront : Taken Request :=
  ⟨Bytes.ascii "GET / HTTP/1.1\r\n\r\n", [], { method := "GET", path := "/" }⟩

theorem bytes_manyFields (n : Nat) :
    (manyFields n).bytes .clientToServer = requestInFront.wire ++ (manyFieldsHead n ++ []) := by
  simp [Stream.bytes, manyFields, requestInFront, Taken.wire]

theorem requestsOf_manyFields (n : Nat) :
    requestsOf ((manyFields n).bytes .clientToServer) =
      [requestInFront] ++ requestsOf (manyFieldsHead n) := by
  have hwhole : parseRequest false requestInFront.wire = .complete requestInFront.head.length
      requestInFront.raw.length requestInFront.message := by decide +kernel
  rw [bytes_manyFields, requestsOf_of_wire hwhole, List.append_nil, List.singleton_append]

theorem dispatches_manyFields :
    Dispatches (manyFields 1024) [requestInFront, ⟨manyFieldsHead 1024, [],
      { method := "GET", path := "/many", headers := Headers.ofList (List.replicate 1024 ("X", "y"))
        body := [] }⟩] ∧
    Dispatches (manyFields 1025) [requestInFront] ∧ 1 ∈ (dispatch (manyFields 1025)).leftOver := by
  have hnone : ∀ n, ∀ f ∈ List.replicate n (⟨Bytes.ascii "X", Bytes.ascii "y"⟩ : Field),
      ¬ f.announces := by
    intro n f hf
    rw [List.eq_of_mem_replicate hf]
    decide +kernel
  have h := fun n => @dispatches_within_room.2.2 (manyFields n) requestInFront.wire
    (manyFieldsHead n) [] _ [requestInFront] (requestsOf (manyFieldsHead n))
    (isRequestHead_manyFieldsHead n) (hnone n) (bytes_manyFields n) (requestsOf_manyFields n)
    (List.append_nil _)
  have hroom := ((h 1024).1 (List.length_replicate ..).le).2
  have hfull := (h 1025).2 (by rw [List.length_replicate]; decide)
  -- The chunk of the head is the last one, and the head is not empty.
  have hlt : requestInFront.wire.length <
      ((manyFields 1025).bytesBefore .clientToServer 2).length := by
    have hpos := List.length_pos_iff.mpr (isRequestHead_manyFieldsHead 1025).ne_nil
    rw [Stream.bytesBefore_of_length_le (Nat.le_refl 2), bytes_manyFields, List.append_nil,
      List.length_append]
    omega
  rw [RequestHead.withBody, Field.toHeaders, List.map_replicate, requestsOf_nil] at hroom
  exact ⟨hroom, hfull.2.1, (hfull.2.2 1 _ rfl rfl (isRequestHead_manyFieldsHead 1025).ne_nil).1 hlt⟩

end HttpReplay.Http
