import HttpReplay.Proofs.Http.Chunked
import HttpReplay.Proofs.Http.Messages
import HttpReplay.Proofs.Http.SentHeads

/-!
# Messages that are sent

A message that a well-behaved client or server puts on the wire is read back as it was sent: its
head, which announces how the body is framed, and then the body in that framing. What stands behind
the message is left alone, so messages that follow each other are read one by one.

* `HttpReplay.Http.Chunked.decode_encode` reads a body in the chunked coding;
* `HttpReplay.Http.framing_of_announced` says that the fields announce the framing;
* `HttpReplay.Http.parseRequest_of_sent` and `HttpReplay.Http.parseResponse_of_sent` read whole
  messages.
-/

namespace HttpReplay.Http

/-! ### The chunked coding -/

namespace Chunked

theorem toNat_lt_of_mem_hex {n : Nat} {c : Char} (h : c ∈ Numeral.hex n) : c.toNat < 128 := by
  obtain ⟨d, hd, rfl⟩ := Numeral.exists_of_mem_toDigits (by decide) h
  exact Numeral.toNat_digitChar_lt d hd

/-- No byte of a size line ends it or its size. -/
theorem ne_of_mem_sizeLine {n : Nat} {b : UInt8} (h : b ∈ sizeLine n) :
    b ≠ Byte.cr ∧ b ≠ Byte.semicolon := by
  rw [sizeLine, Bytes.ascii, String.toList_ofList] at h
  obtain ⟨c, hc, rfl⟩ := List.mem_map.mp h
  obtain ⟨d, hd, rfl⟩ := Numeral.exists_of_mem_toDigits (by decide) hc
  have hdigit : ∀ d < 16, (Nat.digitChar d).toNat.toUInt8 ≠ Byte.cr ∧
      (Nat.digitChar d).toNat.toUInt8 ≠ Byte.semicolon := by decide
  exact hdigit d hd

theorem isLine_sizeLine (n : Nat) : IsLine (sizeLine n) :=
  isLine_of_cr_notMem fun h => (ne_of_mem_sizeLine h).1 rfl

/-- **A size line names its size.** -/
theorem size?_sizeLine {n : Nat} (h : n < Numeral.wordLimit) : size? (sizeLine n) = some n := by
  have hfield : sizeField (sizeLine n) = sizeLine n :=
    List.takeWhile_eq_self_iff.mpr fun b hb => by simp [(ne_of_mem_sizeLine hb).2]
  rw [size?, hfield, sizeLine, Bytes.text?_ascii fun c hc => toNat_lt_of_mem_hex hc,
    Option.bind_some, String.toList_ofList, Numeral.hex, Text.trim_toDigits (by decide) (by decide),
    Numeral.readWord?_toDigits (by decide) (by decide) h]

theorem encode_cons (piece : Bytes) (pieces : List Bytes) :
    encode (piece :: pieces) = encodePiece piece ++ encode pieces := by
  simp [encode]

/-- **What is encoded is in the format.** -/
theorem encodes_encode {pieces : List Bytes} (hne : ∀ piece ∈ pieces, piece ≠ [])
    (hlen : (encode pieces).length < Numeral.wordLimit) :
    Encodes (encode pieces) pieces.flatten := by
  induction pieces with
  | nil => exact .last (isLine_sizeLine 0) (size?_sizeLine (by decide)) .empty
  | cons piece pieces ih =>
    obtain ⟨hpiece, hpieces⟩ := List.forall_mem_cons.mp hne
    rw [encode_cons, encodePiece] at hlen ⊢
    simp only [List.length_append, length_withEnd] at hlen
    rw [List.flatten_cons]
    exact .piece (isLine_sizeLine _) (size?_sizeLine (by omega)) hpiece (ih hpieces (by omega))

/-- **A body in the chunked coding** is decoded to its data. -/
theorem decode_encode {pieces : List Bytes} (hne : ∀ piece ∈ pieces, piece ≠ [])
    (hlen : (encode pieces).length < Numeral.wordLimit) (rest : Bytes) :
    decode (encode pieces ++ rest) = .complete (encode pieces).length pieces.flatten := by
  have hzero : 0 + (encode pieces).length ≤ Numeral.wordLimit := by
    rw [Nat.zero_add]
    exact hlen.le
  rw [decode, decodeFrom_of_encodes (encodes_encode hne hlen) rest hzero, Nat.zero_add]

end Chunked

/-! ### Framings that are announced -/

/-- The framing of a body that is sent. -/
def Coding.framing : Coding → Framing
  | .none => .empty
  | .counted data => .length data.length
  | .chunked _ => .chunked
  | .untilEnd _ => .untilEnd

section Framings

variable {fields : List Field} {c : Coding}

theorem not_isNamed_of_not_announces {f : Field} (h : ¬ f.announces) :
    f.isNamed "content-length" = false ∧ f.isNamed "transfer-encoding" = false := by
  rwa [Field.announces, Bool.or_eq_true, not_or, Bool.not_eq_true, Bool.not_eq_true] at h

theorem isNamed_transfer_of_length {f : Field} (h : f.isNamed "content-length") :
    f.isNamed "transfer-encoding" = false := by
  rw [Field.isNamed, Bytes.eqIgnoringCase, beq_iff_eq] at h
  rw [Field.isNamed, Bytes.eqIgnoringCase, h]
  decide

theorem isChunked_of_forall (h : ∀ f ∈ fields, f.isNamed "transfer-encoding" = false) :
    isChunked fields = false := by
  rw [isChunked, List.any_eq_false]
  intro f hf
  rw [h f hf, Bool.false_and]
  decide

theorem framingByLength?_of_forall (h : ∀ f ∈ fields, f.isNamed "content-length" = false)
    (otherwise : Framing) : framingByLength? fields otherwise = some otherwise := by
  have hnone : fields.find? (·.isNamed "content-length") = none :=
    List.find?_eq_none.mpr fun f hf => by simp [h f hf]
  rw [framingByLength?, hnone]

theorem lengthOf?_decimal {n : Nat} (h : n < Numeral.wordLimit) :
    lengthOf? (Bytes.ascii (String.ofList (Numeral.decimal n))) = some n := by
  have hdigits : ∀ c ∈ Numeral.decimal n, c.toNat < 128 := by
    intro c hc
    obtain ⟨d, hd, rfl⟩ := Numeral.exists_of_mem_toDigits (by decide) hc
    exact Numeral.toNat_digitChar_lt d (by omega)
  rw [lengthOf?, Bytes.text?_ascii hdigits, Option.bind_some, String.toList_ofList,
    Numeral.decimal, Text.trim_toDigits (by decide) (by decide),
    Numeral.readWord?_toDigits (by decide) (by decide) h]

theorem namesChunked_chunked : namesChunked (Bytes.ascii "chunked") = true := by
  have htext := @Bytes.text?_ascii "chunked".toList (by simp)
  rw [String.ofList_toList] at htext
  rw [namesChunked, htext, Option.any_some]
  decide

/-- **The framing that the fields announce**, whatever it is where they announce none. -/
theorem framing_of_announced {otherwise : Framing} (hs : c.IsSendable)
    (h : c.IsAnnouncedBy fields) (ho : c.announcement? = none → c.framing = otherwise) :
    (if isChunked fields then some .chunked else framingByLength? fields otherwise) =
      some c.framing := by
  cases c with
  | counted data =>
    obtain ⟨before, f, after, rfl, hname, hvalue, hothers⟩ := h
    have hother : ∀ g ∈ before, g.isNamed "content-length" = false := fun g hg =>
      (not_isNamed_of_not_announces (hothers g (List.mem_append_left _ hg))).1
    -- The one field that announces a framing names a length.
    have hchunked : isChunked (before ++ f :: after) = false := by
      refine isChunked_of_forall fun g hg => ?_
      rcases List.mem_append.mp hg with hg | hg
      · exact (not_isNamed_of_not_announces (hothers g (List.mem_append_left _ hg))).2
      · rcases List.mem_cons.mp hg with rfl | hg
        · exact isNamed_transfer_of_length hname
        · exact (not_isNamed_of_not_announces (hothers g (List.mem_append_right _ hg))).2
    have hfind : (before ++ f :: after).find? (·.isNamed "content-length") = some f := by
      rw [List.find?_append, List.find?_eq_none.mpr fun g hg => by simp [hother g hg],
        List.find?_cons, hname]
      rfl
    rw [hchunked, framingByLength?, hfind]
    simp only [Bool.false_eq_true, if_false, hvalue]
    rw [lengthOf?_decimal hs]
    rfl
  | chunked pieces =>
    obtain ⟨before, f, after, rfl, hname, hvalue, hothers⟩ := h
    have hchunked : isChunked (before ++ f :: after) = true := by
      rw [isChunked, List.any_append, List.any_cons, hname, hvalue, namesChunked_chunked]
      simp
    rw [if_pos hchunked]
    rfl
  | none =>
    have hothers := fun f hf => not_isNamed_of_not_announces (h f hf)
    rw [isChunked_of_forall fun f hf => (hothers f hf).2,
      framingByLength?_of_forall (fun f hf => (hothers f hf).1), ← ho rfl]
    rfl
  | untilEnd data =>
    have hothers := fun f hf => not_isNamed_of_not_announces (h f hf)
    rw [isChunked_of_forall fun f hf => (hothers f hf).2,
      framingByLength?_of_forall (fun f hf => (hothers f hf).1), ← ho rfl]
    rfl

/-- The framing of a request that is sent. -/
theorem requestFraming?_of_sent {r : SentRequest} (h : r.IsSendable) :
    requestFraming? r.fields = some r.body.framing := by
  refine framing_of_announced h.body_sendable h.body_announced fun ha => ?_
  cases hb : r.body with
  | none => rfl
  | untilEnd data => exact absurd hb (h.body_ends data)
  | counted data => rw [hb] at ha; cases ha
  | chunked pieces => rw [hb] at ha; cases ha

/-- **A response fits** the method that is taken for its request's: it has no body where the method
or its status rules one out, and elsewhere one that is announced or ends with the stream. -/
def SentResponse.Fits (r : SentResponse) (method : Option String) : Prop :=
  if isBodiless r.status method then r.body = .none
  else r.body ≠ .none ∧ r.body.IsAnnouncedBy r.fields

/-- The framing of a response that fits. -/
theorem SentResponse.Fits.framing {r : SentResponse} {method : Option String}
    (hf : r.Fits method) (h : r.body.IsSendable) :
    responseFraming? r.fields r.status method = some r.body.framing := by
  rw [SentResponse.Fits] at hf
  rw [responseFraming?]
  split at hf
  · rename_i hbare
    rw [if_pos hbare, hf]
    rfl
  · rename_i hbare
    rw [if_neg hbare]
    refine framing_of_announced h hf.2 fun ha => ?_
    cases hb : r.body with
    | none => exact absurd hb hf.1
    | untilEnd data => rfl
    | counted data => rw [hb] at ha; cases ha
    | chunked pieces => rw [hb] at ha; cases ha

end Framings

/-! ### Bodies that are sent -/

/-- A body whose end shows is read back. -/
theorem readBody_of_sent {c : Coding} (hs : c.IsSendable) (he : ∀ data, c ≠ .untilEnd data)
    (rest : Bytes) :
    readBody c.framing false (c.wire ++ rest) = .complete c.wire.length c.data := by
  cases c with
  | none => rfl
  | counted data =>
    rw [Coding.framing, Coding.wire, readBody, if_pos, List.take_left]
    · rfl
    · rw [List.length_append]
      exact Nat.le_add_right _ _
  | chunked pieces =>
    simp only [Coding.framing, Coding.wire, Coding.data, readBody]
    rw [Chunked.decode_encode hs.1 hs.2]
  | untilEnd data => exact absurd rfl (he data)

/-! ### Requests that are sent -/

/-- A request as a reader takes it off the wire. -/
def SentRequest.taken (r : SentRequest) : Taken Request := ⟨r.head, r.body.wire, r.message⟩

/-- A response as a reader takes it off the wire. -/
def SentResponse.taken (r : SentResponse) : Taken Response := ⟨r.head, r.body.wire, r.message⟩

theorem length_head_pos (first : Bytes) (fields : List Field) :
    0 < (headOf first fields).length := by
  simp only [headOf, lineOf, List.length_append, List.length_cons]
  omega

/-- **A request that is sent** is read back, whatever stands behind it and whether or not the
stream has ended. -/
theorem parseRequest_of_sent {r : SentRequest} (h : r.IsSendable) (atEnd : Bool) (rest : Bytes) :
    parseRequest atEnd (r.wire ++ rest) =
      .complete r.head.length r.body.wire.length r.message := by
  have hfalse : parseRequest false (r.wire ++ rest) =
      .complete r.head.length r.body.wire.length r.message := by
    have hhead := requestHead_of_sent h (r.body.wire ++ rest)
    rw [← requestHeadWidening_eq] at hhead
    have hany := @anyRequestHead_of_ne_refused (r.head ++ (r.body.wire ++ rest)) (by simp [hhead])
    rw [SentRequest.wire, List.append_assoc, parseRequest_eq,
      parseBy_of_done (hany.trans hhead)]
    refine parseBody_eq_complete.mpr ⟨_, _, requestFraming?_of_sent h,
      readBody_of_sent h.body_sendable h.body_ends rest, ?_, rfl⟩
    rw [List.length_append]
    omega
  rw [← hfalse]
  exact parseRequest_of_ne_incomplete (by simp [hfalse]) atEnd

/-- **A request that is sent next** is what reading finds, unless it waits for more. -/
theorem parseRequest_of_front {r : SentRequest} {atEnd : Bool} {bytes later rest : Bytes}
    (h : r.IsSendable) (hb : bytes ++ later = r.wire ++ rest) (he : atEnd = true → later = []) :
    parseRequest atEnd bytes = .complete r.head.length r.body.wire.length r.message ∨
      atEnd = false ∧ parseRequest atEnd bytes = .incomplete := by
  cases atEnd with
  | true =>
    rw [he rfl, List.append_nil] at hb
    exact Or.inl (hb ▸ parseRequest_of_sent h true rest)
  | false =>
    by_cases hwait : parseRequest false bytes = .incomplete
    · exact Or.inr ⟨rfl, hwait⟩
    · rw [← parseRequest_append hwait false later, hb, parseRequest_of_sent h]
      exact Or.inl rfl

/-- **Requests that are sent one after the other** are the requests of the stream. -/
theorem requestsOf_of_sent {requests : List SentRequest} (h : ∀ r ∈ requests, r.IsSendable) :
    requestsOf (requests.flatMap SentRequest.wire) = requests.map SentRequest.taken := by
  induction requests with
  | nil => exact requestsOf_nil
  | cons r requests ih =>
    obtain ⟨hr, hrequests⟩ := List.forall_mem_cons.mp h
    have hwhole := parseRequest_of_sent hr false []
    rw [List.append_nil] at hwhole
    rw [List.flatMap_cons, List.map_cons, ← ih hrequests]
    exact @requestsOf_of_wire r.taken hwhole _

theorem SentRequest.wire_taken (r : SentRequest) : r.taken.wire = r.wire := rfl

/-! ### Responses that are sent -/

theorem SentResponse.wire_ne_nil (r : SentResponse) : r.wire ≠ [] := by
  rw [← List.length_pos_iff, SentResponse.wire, List.length_append]
  have := length_head_pos r.firstLine r.fields
  rw [SentResponse.head]
  omega

/-- An interim response fits whatever the request is. -/
theorem SentResponse.IsInterim.fits {r : SentResponse} (hi : r.IsInterim) (h : r.IsSendable)
    (method : Option String) : r.Fits method := by
  have hbare : isBodiless r.status method = true := by
    rw [isBodiless, decide_eq_true h.status_ge, decide_eq_true hi.1]
    simp
  rw [SentResponse.Fits, if_pos hbare]
  exact hi.2.2

theorem lower_ofNat_of_byte (b : UInt8) :
    Text.lower (Char.ofNat b.toNat) = Char.ofNat (Byte.lower b).toNat := by
  have h : ∀ n < 256, Text.lower (Char.ofNat n) = Char.ofNat (Byte.lower n.toUInt8).toNat := by
    decide +kernel
  have := h b.toNat b.toNat_lt
  rwa [Nat.toUInt8_eq, UInt8.ofNat_toNat] at this

/-- A method is that of a `HEAD` request, as text, just when it is as bytes. -/
theorem lower_latin1_eq_head {method : Bytes} :
    (Bytes.latin1 method).toList.map Text.lower = "head".toList ↔
      Bytes.eqIgnoringCase method (Bytes.ascii "HEAD") = true := by
  rw [Bytes.eqIgnoringCase, beq_iff_eq, Bytes.latin1, String.toList_ofList, List.map_map]
  have hmap : method.map (Text.lower ∘ fun b => Char.ofNat b.toNat) =
      (method.map Byte.lower).map fun b => Char.ofNat b.toNat := by
    rw [List.map_map]
    exact List.map_congr_left fun b _ => lower_ofNat_of_byte b
  have hhead : "head".toList =
      ((Bytes.ascii "HEAD").map Byte.lower).map fun b => Char.ofNat b.toNat := by decide
  rw [hmap, hhead]
  refine (List.map_injective_iff.mpr fun a b hab => ?_).eq_iff
  have := congrArg Char.toNat hab
  rw [Bytes.toNat_ofNat_of_byte, Bytes.toNat_ofNat_of_byte] at this
  exact UInt8.toNat_inj.mp this

/-- A final response fits its own request. -/
theorem SentResponse.IsFinal.fits {r : SentResponse} {method : Bytes} (h : r.IsFinal method) :
    r.Fits (some (Bytes.latin1 method)) := by
  obtain ⟨hge, hbody⟩ := h
  have hbare : isBodiless r.status (some (Bytes.latin1 method)) = true ↔ r.IsBare method := by
    rw [isBodiless, SentResponse.IsBare, ← lower_latin1_eq_head]
    have hlt : ¬ r.status < 200 := Nat.not_lt.mpr hge
    simp [hlt, or_assoc]
  rw [SentResponse.Fits]
  split
  · rename_i hb
    rwa [if_pos (hbare.mp hb)] at hbody
  · rename_i hb
    rwa [if_neg (hbare.not.mp hb)] at hbody

theorem parseResponse_of_head {r : SentResponse} {method : Option String} (h : r.IsSendable)
    (hf : r.Fits method) (atEnd : Bool) (rest : Bytes) :
    parseResponse atEnd method (r.wire ++ rest) =
      parseBody (some r.body.framing) atEnd r.head.length (r.body.wire ++ rest)
        (ResponseHead.withBody
          ⟨r.version, r.status, Bytes.latin1 r.reason, r.fields⟩) := by
  have hhead := responseHead_of_sent h (r.body.wire ++ rest)
  rw [← responseHeadWidening_eq] at hhead
  rw [SentResponse.wire, List.append_assoc, parseResponse_eq, parseBy_of_done hhead,
    hf.framing h.body_sendable, List.length_append, Nat.add_sub_cancel]

/-- **A response that is sent** and whose end shows is read back, whatever stands behind it. -/
theorem parseResponse_of_sent {r : SentResponse} {method : Option String} (h : r.IsSendable)
    (hf : r.Fits method) (he : ∀ data, r.body ≠ .untilEnd data) (rest : Bytes) :
    parseResponse false method (r.wire ++ rest) =
      .complete r.head.length r.body.wire.length r.message := by
  rw [parseResponse_of_head h hf]
  exact parseBody_eq_complete.mpr
    ⟨_, _, rfl, readBody_of_sent h.body_sendable he rest, rfl, rfl⟩

/-- **A response that ends with the stream** is not there before the end, and then it is. -/
theorem parseResponse_of_untilEnd {r : SentResponse} {method : Option String} {data : Bytes}
    (h : r.IsSendable) (hf : r.Fits method) (he : r.body = .untilEnd data) :
    parseResponse false method r.wire = .incomplete ∧
      parseResponse true method r.wire =
        .complete r.head.length r.body.wire.length r.message := by
  have hread : ∀ atEnd, parseResponse atEnd method r.wire =
      parseBody (some .untilEnd) atEnd r.head.length data
        (ResponseHead.withBody ⟨r.version, r.status, Bytes.latin1 r.reason, r.fields⟩) := by
    intro atEnd
    have := parseResponse_of_head h hf atEnd []
    rw [List.append_nil, List.append_nil, he] at this
    exact this
  refine ⟨hread false, ?_⟩
  rw [hread true, he, SentResponse.message, he]
  rfl

/-- **A response that is sent next** is what reading finds, unless it waits for more. -/
theorem parseResponse_of_front {r : SentResponse} {method : Option String} {atEnd : Bool}
    {bytes later rest : Bytes} (h : r.IsSendable) (hf : r.Fits method)
    (hlast : ∀ data, r.body = .untilEnd data → rest = [])
    (hb : bytes ++ later = r.wire ++ rest) (he : atEnd = true → later = []) :
    parseResponse atEnd method bytes =
        .complete r.head.length r.body.wire.length r.message ∨
      atEnd = false ∧ parseResponse atEnd method bytes = .incomplete := by
  by_cases hend : ∃ data, r.body = .untilEnd data
  · obtain ⟨data, hdata⟩ := hend
    have hread := parseResponse_of_untilEnd h hf hdata
    rw [hlast data hdata, List.append_nil] at hb
    cases atEnd with
    | true =>
      rw [he rfl, List.append_nil] at hb
      exact Or.inl (hb ▸ hread.2)
    | false =>
      -- Before the end of the stream nothing is found.
      refine Or.inr ⟨rfl, ?_⟩
      by_contra hwait
      rw [← parseResponse_append hwait false later, hb] at hwait
      exact hwait hread.1
  · -- A body that shows its own end is found as soon as it is there.
    have hread := parseResponse_of_sent h hf (fun data hdata => hend ⟨data, hdata⟩) rest
    cases atEnd with
    | true =>
      rw [he rfl, List.append_nil] at hb
      have := @parseResponse_append method bytes (by rw [hb, hread]; simp) true []
      rw [List.append_nil] at this
      rw [this, hb, hread]
      exact Or.inl rfl
    | false =>
      by_cases hwait : parseResponse false method bytes = .incomplete
      · exact Or.inr ⟨rfl, hwait⟩
      · rw [← parseResponse_append hwait false later, hb, hread]
        exact Or.inl rfl

end HttpReplay.Http
