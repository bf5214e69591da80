import HttpReplay.Http.Parse
import HttpReplay.Proofs.Http.Bodies
import HttpReplay.Proofs.Http.Headers
import HttpReplay.Proofs.Http.LenientHeads

/-!
# Messages that still arrive

Reading a message is tried again with every chunk. This file puts the head and the body together:
a message, or bytes that are none, stay what they are when more bytes arrive, and a message is
found with its last byte. Requests and responses are read alike, by a scan for the head and a
framing that the head decides, so both are instances of `HttpReplay.Http.parseBy`.

* `HttpReplay.Http.parseRequest_append` and `HttpReplay.Http.lt_of_parseRequest_append` are the
  two laws for requests, `HttpReplay.Http.parseResponse_append` is the first for responses;
* `HttpReplay.Http.parseRequest_atEnd` is what the end of the stream changes;
* `HttpReplay.Http.exists_of_requestsOf_cons` takes the first request off all that there are, and
  `HttpReplay.Http.requestsOf_behind` all those in front of some place.
-/

namespace HttpReplay.Http

open Scan

variable {η μ : Type}

/-! ### Messages of either kind -/

/-- Read a message by a scan for its head, the framing that the head decides, and what a head
and a body make together. -/
def parseBy (read : Bytes → Scan η) (framing : η → Option Framing) (message : η → Bytes → μ)
    (atEnd : Bool) (bytes : Bytes) : Parsed μ :=
  match read bytes with
  | .more => .incomplete
  | .refused why => .invalid (.head why)
  | .done head rest =>
    parseBody (framing head) atEnd (bytes.length - rest.length) rest (message head)

theorem parseRequest_eq (atEnd : Bool) (bytes : Bytes) :
    parseRequest atEnd bytes =
      parseBy anyRequestHead (fun head => requestFraming? head.fields) RequestHead.withBody atEnd
        bytes := by
  rw [parseRequest, parseBy]
  cases anyRequestHead bytes <;> rfl

theorem parseResponse_eq (method : Option String) (atEnd : Bool) (bytes : Bytes) :
    parseResponse atEnd method bytes =
      parseBy responseHeadWidening
        (fun head => responseFraming? head.fields head.status method) ResponseHead.withBody atEnd
        bytes := by
  rw [parseResponse, parseBy]
  cases responseHeadWidening bytes <;> rfl

theorem parseBody_eq_complete {framing : Option Framing} {atEnd : Bool} {n h b : Nat}
    {rest : Bytes} {message : Bytes → μ} {m : μ} :
    parseBody framing atEnd n rest message = .complete h b m ↔
      ∃ f decoded, framing = some f ∧ readBody f atEnd rest = .complete b decoded ∧
        h = n ∧ m = message decoded := by
  rcases framing with _ | f
  · simp [parseBody]
  · cases hb : readBody f atEnd rest <;> simp only [parseBody, hb]
    case complete length decoded =>
      constructor
      · intro he
        cases he
        exact ⟨f, decoded, rfl, hb, rfl, rfl⟩
      · rintro ⟨g, d, hg, hd, rfl, rfl⟩
        cases hg
        rw [hb] at hd
        cases hd
        rfl
    all_goals
      refine iff_of_false (by simp) ?_
      rintro ⟨g, d, hg, hd, -, -⟩
      cases hg
      rw [hb] at hd
      cases hd

theorem parseBody_eq_incomplete {framing : Option Framing} {atEnd : Bool} {n : Nat}
    {rest : Bytes} {message : Bytes → μ} :
    parseBody framing atEnd n rest message = .incomplete ↔
      ∃ f, framing = some f ∧ readBody f atEnd rest = .incomplete := by
  rcases framing with _ | f
  · simp [parseBody]
  · cases hb : readBody f atEnd rest <;> simp [parseBody, hb]

section ParseBy

variable {read : Bytes → Scan η} {framing : η → Option Framing} {message : η → Bytes → μ}
variable {atEnd : Bool} {bytes later : Bytes} {h b : Nat} {m : μ}

theorem parseBy_of_done {head : η} {rest : Bytes} (hd : read bytes = .done head rest) :
    parseBy read framing message atEnd bytes =
      parseBody (framing head) atEnd (bytes.length - rest.length) rest (message head) := by
  rw [parseBy, hd]

theorem parseBy_of_more (hm : read bytes = .more) :
    parseBy read framing message atEnd bytes = .incomplete := by
  rw [parseBy, hm]

theorem parseBy_of_refused {why : Refusal} (hr : read bytes = .refused why) :
    parseBy read framing message atEnd bytes = .invalid (.head why) := by
  rw [parseBy, hr]

theorem parseBy_eq_complete :
    parseBy read framing message atEnd bytes = .complete h b m ↔
      ∃ head rest f decoded, read bytes = .done head rest ∧ framing head = some f ∧
        readBody f atEnd rest = .complete b decoded ∧ h = bytes.length - rest.length ∧
        m = message head decoded := by
  cases hr : read bytes with
  | more => simp [parseBy_of_more hr]
  | refused why => simp [parseBy_of_refused hr]
  | done head rest =>
    rw [parseBy_of_done hr, parseBody_eq_complete]
    constructor
    · rintro ⟨f, decoded, hf, hb, rfl, rfl⟩
      exact ⟨head, rest, f, decoded, rfl, hf, hb, rfl, rfl⟩
    · rintro ⟨_, _, f, decoded, hd, hf, hb, rfl, rfl⟩
      cases hd
      exact ⟨f, decoded, hf, hb, rfl, rfl⟩

theorem length_le_of_parseBy (hl : ∀ bytes, (read bytes).Leaves bytes.length)
    (hp : parseBy read framing message atEnd bytes = .complete h b m) : h + b ≤ bytes.length := by
  obtain ⟨head, rest, f, decoded, hd, -, hb, rfl, -⟩ := parseBy_eq_complete.mp hp
  have := hl bytes head rest hd
  have := length_le_of_readBody hb
  omega

theorem parseBy_append (hs : Steady read)
    (hne : parseBy read framing message false bytes ≠ .incomplete) (atEnd : Bool)
    (later : Bytes) :
    parseBy read framing message atEnd (bytes ++ later) =
      parseBy read framing message false bytes := by
  cases hr : read bytes with
  | more => exact absurd (parseBy_of_more hr) hne
  | refused why => rw [parseBy_of_refused hr, parseBy_of_refused (hs.refused hr later)]
  | done head rest =>
    rw [parseBy_of_done hr] at hne ⊢
    rw [parseBy_of_done (hs.done hr later)]
    have hlen : (bytes ++ later).length - (rest ++ later).length = bytes.length - rest.length := by
      simp only [List.length_append]
      omega
    cases hf : framing head with
    | none => rfl
    | some f =>
      have hb : readBody f false rest ≠ .incomplete := fun hb =>
        hne (parseBody_eq_incomplete.mpr ⟨f, hf, hb⟩)
      simp only [parseBody, readBody_append hb, hlen]

theorem lt_of_parseBy_append (hs : Steady read) (hq : Prompt read)
    (hl : ∀ bytes, (read bytes).Leaves bytes.length)
    (hi : parseBy read framing message false bytes = .incomplete)
    (hp : parseBy read framing message false (bytes ++ later) = .complete h b m) :
    bytes.length < h + b := by
  obtain ⟨head, rest, f, decoded, hd, hf, hb, rfl, -⟩ := parseBy_eq_complete.mp hp
  cases hr : read bytes with
  | more =>
    -- The head itself ends behind the bytes.
    have := hq bytes later head rest hr hd
    have := hl (bytes ++ later) head rest hd
    rw [List.length_append] at this ⊢
    omega
  | refused why =>
    rw [parseBy_of_refused hr] at hi
    cases hi
  | done head' rest' =>
    -- The head stays what it is, so it is the body that goes on.
    have hd' := hs.done hr later
    rw [hd'] at hd
    cases hd
    rw [parseBy_of_done hr] at hi
    obtain ⟨f', hf', hi'⟩ := parseBody_eq_incomplete.mp hi
    obtain rfl : f' = f := Option.some.inj (hf'.symm.trans hf)
    have := lt_of_readBody_append hi' hb
    have := hl bytes head rest' hr
    simp only [List.length_append]
    omega

theorem parseBy_atEnd (hl : ∀ bytes, (read bytes).Leaves bytes.length)
    (hp : parseBy read framing message true bytes = .complete h b m) :
    parseBy read framing message false bytes = .complete h b m ∨
      parseBy read framing message false bytes = .incomplete ∧ h + b = bytes.length := by
  obtain ⟨head, rest, f, decoded, hd, hf, hb, rfl, rfl⟩ := parseBy_eq_complete.mp hp
  rw [parseBy_of_done hd]
  rcases readBody_atEnd hb with hb' | ⟨hi, rfl⟩
  · exact Or.inl (parseBody_eq_complete.mpr ⟨f, decoded, hf, hb', rfl, rfl⟩)
  · refine Or.inr ⟨parseBody_eq_incomplete.mpr ⟨f, hf, hi⟩, ?_⟩
    have := hl bytes head rest hd
    omega

end ParseBy

/-! ### Requests -/

section Requests

variable {atEnd : Bool} {bytes later : Bytes} {h b : Nat} {m : Request}

theorem leaves_anyRequestHead_length (bytes : Bytes) :
    (anyRequestHead bytes).Leaves bytes.length :=
  (leaves_anyRequestHead bytes).mono (Nat.sub_le _ _)

@[simp] theorem parseRequest_nil (atEnd : Bool) : parseRequest atEnd [] = .incomplete := by
  have hmore : requestHeadWidening [] = .more := by
    rw [requestHeadWidening_eq, requestHead_eq, emptyLines.eq_def]
    rfl
  rw [parseRequest, anyRequestHead, hmore]

/-- A request takes bytes that are there. -/
theorem length_le_of_parseRequest (hp : parseRequest atEnd bytes = .complete h b m) :
    h + b ≤ bytes.length := by
  rw [parseRequest_eq] at hp
  exact length_le_of_parseBy leaves_anyRequestHead_length hp

/-- **A request that is there**, and bytes that are no request, stay what they are. -/
theorem parseRequest_append (hne : parseRequest false bytes ≠ .incomplete) (atEnd : Bool)
    (later : Bytes) : parseRequest atEnd (bytes ++ later) = parseRequest false bytes := by
  rw [parseRequest_eq] at hne
  rw [parseRequest_eq, parseRequest_eq]
  exact parseBy_append steady_anyRequestHead hne atEnd later

/-- What is no longer incomplete does not depend on whether the stream has ended. -/
theorem parseRequest_of_ne_incomplete (hne : parseRequest false bytes ≠ .incomplete)
    (atEnd : Bool) : parseRequest atEnd bytes = parseRequest false bytes := by
  have := parseRequest_append hne atEnd []
  rwa [List.append_nil] at this

/-- **A request is found with its last byte.** -/
theorem lt_of_parseRequest_append (hi : parseRequest false bytes = .incomplete)
    (hp : parseRequest false (bytes ++ later) = .complete h b m) : bytes.length < h + b := by
  rw [parseRequest_eq] at hi hp
  exact lt_of_parseBy_append steady_anyRequestHead prompt_anyRequestHead
    leaves_anyRequestHead_length hi hp

/-- At the end of the stream a request is what it was before, or else all that there is. -/
theorem parseRequest_atEnd (hp : parseRequest true bytes = .complete h b m) :
    parseRequest false bytes = .complete h b m ∨
      parseRequest false bytes = .incomplete ∧ h + b = bytes.length := by
  rw [parseRequest_eq] at hp
  rw [parseRequest_eq]
  exact parseBy_atEnd leaves_anyRequestHead_length hp

end Requests

/-! ### Responses -/

section Responses

variable {atEnd : Bool} {method : Option String} {bytes : Bytes} {h b : Nat} {m : Response}

@[simp] theorem parseResponse_nil (atEnd : Bool) (method : Option String) :
    parseResponse atEnd method [] = .incomplete := by
  have hmore : responseHeadWidening [] = .more := by
    rw [responseHeadWidening_eq, responseHead, emptyLines.eq_def]
    rfl
  rw [parseResponse, hmore]

/-- A response takes bytes that are there. -/
theorem length_le_of_parseResponse (hp : parseResponse atEnd method bytes = .complete h b m) :
    h + b ≤ bytes.length := by
  rw [parseResponse_eq] at hp
  exact length_le_of_parseBy
    (fun bytes => (leaves_responseHeadWidening bytes).mono (Nat.sub_le _ _)) hp

/-- **A response that is there**, and bytes that are no response, stay what they are. -/
theorem parseResponse_append (hne : parseResponse false method bytes ≠ .incomplete)
    (atEnd : Bool) (later : Bytes) :
    parseResponse atEnd method (bytes ++ later) = parseResponse false method bytes := by
  rw [parseResponse_eq] at hne
  rw [parseResponse_eq, parseResponse_eq]
  exact parseBy_append steady_responseHeadWidening hne atEnd later

end Responses

/-! ### Messages that were taken -/

namespace Taken

variable {μ : Type}

/-- The bytes of a message. -/
def wire (t : Taken μ) : Bytes := t.head ++ t.raw

/-- **A request that the end of the stream cuts short**: its bytes are those of an unfinished
one. -/
def IsCut (t : Taken Request) : Prop := parseRequest false t.wire = .incomplete

end Taken

/-! ### Reading all requests -/

section RequestsOf

variable {bytes : Bytes}

@[simp] theorem requestsOf_nil : requestsOf [] = [] := by
  rw [requestsOf, dif_pos rfl]

theorem requestsOf_of_complete {h b : Nat} {m : Request} (hb : bytes ≠ [])
    (hp : parseRequest true bytes = .complete h b m) :
    requestsOf bytes =
      ⟨bytes.take h, (bytes.drop h).take b, m⟩ :: requestsOf (bytes.drop (h + b)) := by
  rw [requestsOf, dif_neg hb]
  split
  · rename_i h' b' m' hp'
    rw [hp] at hp'
    cases hp'
    rfl
  · rename_i hne
    exact absurd hp (hne h b m)

theorem requestsOf_of_ne_complete (hp : ∀ h b m, parseRequest true bytes ≠ .complete h b m) :
    requestsOf bytes = [] := by
  rw [requestsOf]
  split
  · rfl
  · split
    · rename_i h b m hp'
      exact absurd hp' (hp h b m)
    · rfl

/-- The first request, where there is one, and what is behind it. -/
theorem exists_of_requestsOf_cons {t : Taken Request} {rest : List (Taken Request)}
    (h : requestsOf bytes = t :: rest) :
    ∃ n b m, parseRequest true bytes = .complete n b m ∧ bytes ≠ [] ∧
      t = ⟨bytes.take n, (bytes.drop n).take b, m⟩ ∧
      t.wire = bytes.take (n + b) ∧ t.wire.length = n + b ∧
      rest = requestsOf (bytes.drop (n + b)) := by
  have hb : bytes ≠ [] := by
    rintro rfl
    rw [requestsOf_nil] at h
    cases h
  cases hp : parseRequest true bytes with
  | complete n b m =>
    rw [requestsOf_of_complete hb hp] at h
    cases h
    refine ⟨n, b, m, rfl, hb, rfl, List.take_add.symm, ?_, rfl⟩
    rw [Taken.wire, ← List.take_add, List.length_take,
      Nat.min_eq_left (length_le_of_parseRequest hp)]
  | incomplete =>
    rw [requestsOf_of_ne_complete (by simp [hp])] at h
    cases h
  | invalid why =>
    rw [requestsOf_of_ne_complete (by simp [hp])] at h
    cases h

/-- **A whole request** is read off the front of whatever stands behind it. -/
theorem requestsOf_of_wire {t : Taken Request}
    (h : parseRequest false t.wire = .complete t.head.length t.raw.length t.message)
    (later : Bytes) : requestsOf (t.wire ++ later) = t :: requestsOf later := by
  have hp : parseRequest true (t.wire ++ later) =
      .complete t.head.length t.raw.length t.message := by
    rw [parseRequest_append (by simp [h]), h]
  have hne : t.wire ++ later ≠ [] := by
    intro hnil
    rw [(List.append_eq_nil_iff.mp hnil).1, parseRequest_nil] at h
    cases h
  rw [requestsOf_of_complete hne hp, ← List.length_append, ← Taken.wire, List.drop_left, Taken.wire,
    List.append_assoc, List.take_left, List.drop_left, List.take_left]

/-- A request behind which there are more bytes is whole. -/
theorem parseRequest_wire {t : Taken Request} {rest : List (Taken Request)}
    (h : requestsOf bytes = t :: rest) (hlt : t.wire.length < bytes.length) :
    parseRequest false t.wire = .complete t.head.length t.raw.length t.message := by
  obtain ⟨n, b, m, hp, -, rfl, hwire, hlen, -⟩ := exists_of_requestsOf_cons h
  have hle := length_le_of_parseRequest hp
  -- It does not take all bytes there are, so it was there before the end.
  have hp' := (parseRequest_atEnd hp).resolve_right fun hall => by omega
  rw [← List.take_append_drop (n + b) bytes] at hp'
  rw [hwire, List.length_take, List.length_take, List.length_drop, Nat.min_eq_left (by omega),
    Nat.min_eq_left (by omega)]
  by_cases hi : parseRequest false (bytes.take (n + b)) = .incomplete
  · have := lt_of_parseRequest_append hi hp'
    rw [List.length_take] at this
    omega
  · rw [← parseRequest_append hi false, hp']

/-- **What stands behind some requests** is read by itself. -/
theorem requestsOf_behind {before later : Bytes} {early more : List (Taken Request)}
    (h : requestsOf (before ++ later) = early ++ more)
    (hbefore : early.flatMap Taken.wire = before) (hne : later ≠ []) :
    requestsOf later = more ∧
      ∀ other, requestsOf (before ++ other) = early ++ requestsOf other := by
  induction early generalizing before with
  | nil =>
    subst hbefore
    exact ⟨h, fun other => rfl⟩
  | cons t early ih =>
    rw [List.flatMap_cons] at hbefore
    subst hbefore
    rw [List.append_assoc, List.cons_append] at h
    -- There are more bytes, so no request in front is one that the end of the stream cuts short.
    have hlt : t.wire.length < (t.wire ++ (early.flatMap Taken.wire ++ later)).length := by
      have := List.length_pos_iff.mpr hne
      simp only [List.length_append]
      omega
    have hwhole := parseRequest_wire h hlt
    rw [requestsOf_of_wire hwhole, List.cons.injEq] at h
    obtain ⟨hmore, hother⟩ := ih h.2 rfl
    refine ⟨hmore, fun other => ?_⟩
    rw [List.append_assoc, requestsOf_of_wire hwhole, hother, List.cons_append]

/-- A request that is read takes bytes. -/
theorem wire_ne_nil_of_mem {t : Taken Request} (h : t ∈ requestsOf bytes) :
    t.wire ≠ [] := by
  fun_induction requestsOf bytes with
  | case1 => cases h
  | case2 bytes hb n b m hp ih =>
    rcases List.mem_cons.mp h with rfl | h
    · have hpos := takesByte_parseRequest _ _ n b m hp hb
      have hle := length_le_of_parseRequest hp
      rw [Taken.wire, ← List.take_add, ← List.length_pos_iff, List.length_take]
      omega
    · exact ih h
  | case3 => cases h

/-- The header fields of a request that is read have every name once. -/
theorem nodup_names_of_mem {t : Taken Request} (h : t ∈ requestsOf bytes) :
    t.message.headers.names.Nodup := by
  fun_induction requestsOf bytes with
  | case1 => cases h
  | case2 bytes hb n b m hp ih =>
    rcases List.mem_cons.mp h with rfl | h
    · rw [parseRequest_eq] at hp
      obtain ⟨head, rest, f, decoded, -, -, -, -, rfl⟩ := parseBy_eq_complete.mp hp
      exact Headers.nodup_names_ofList _
    · exact ih h
  | case3 => cases h

end RequestsOf

end HttpReplay.Http
