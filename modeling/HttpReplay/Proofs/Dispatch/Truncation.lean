import HttpReplay.Proofs.Dispatch.Requests

/-!
# Streams that are cut short

A capture may end anywhere: within a head, within a body, between the digits of a size. At its end
a head that is cut short is left alone, but a body is taken for whatever there is of it, so the last
request of such a stream may be one that the whole stream does not hold. This file says how the two
compare. All requests but the last one are those of the whole stream, and the last one is the
beginning of the one that stands in its place there, if one does.

What the end of the stream makes of a body can only grow with the bytes that are there. For the
chunked coding this is about the data alone: a piece that is cut short shows a part of its data, and
more bytes may still make the whole body none.

* `HttpReplay.Http.Chunked.decodeFrom_append_shows` is the law for the chunked coding,
  `HttpReplay.Http.readBody_atEnd_append` and `HttpReplay.Http.parseRequest_atEnd_append` are those
  for bodies and for requests;
* `HttpReplay.Http.requestsOf_append` compares all requests, by `HttpReplay.Http.CutShort`;
* `HttpReplay.Http.requests_of_truncated` is about runs.
-/

namespace HttpReplay.Http

open Event

/-! ### The chunked coding -/

namespace Chunked

/-- The data that an outcome shows begins with the bytes given; one that is refused shows none. -/
def Outcome.Shows (data : Bytes) : Outcome → Prop
  | .complete _ decoded => data <+: decoded
  | .partly decoded => data <+: decoded
  | .invalid => True

theorem after_eq_partly {o : Outcome} {data decoded : Bytes} :
    o.after data = .partly decoded ↔ ∃ d, o = .partly d ∧ decoded = data ++ d := by
  cases o <;> simp [Outcome.after, eq_comm]

theorem Outcome.shows_nil (o : Outcome) : o.Shows [] := by
  cases o with
  | complete n decoded => exact List.nil_prefix
  | partly decoded => exact List.nil_prefix
  | invalid => trivial

theorem Outcome.Shows.after {o : Outcome} {data : Bytes} (h : o.Shows data) (front : Bytes) :
    (o.after front).Shows (front ++ data) := by
  cases o with
  | complete n decoded => exact (List.prefix_append_right_inj front).mpr h
  | partly decoded => exact (List.prefix_append_right_inj front).mpr h
  | invalid => trivial

theorem Outcome.shows_after (o : Outcome) (data : Bytes) : (o.after data).Shows data := by
  have := o.shows_nil.after data
  rwa [List.append_nil] at this

theorem Outcome.Shows.mono {o : Outcome} {data front : Bytes} (h : o.Shows data)
    (hf : front <+: data) : o.Shows front := by
  cases o with
  | complete n decoded => exact hf.trans h
  | partly decoded => exact hf.trans h
  | invalid => trivial

/-- A piece shows the data that is there of it. -/
theorem shows_of_piece {position size : Nat} {bytes line rest : Bytes}
    (h : Bytes.splitCrlf? bytes = some (line, rest)) (hs : size? line = some size) (hz : size ≠ 0) :
    (decodeFrom position bytes).Shows (rest.take size) := by
  rw [decodeFrom_of_piece h hs hz]
  split
  · trivial
  · split
    · split
      · exact Outcome.shows_after _ _
      · trivial
    · exact List.prefix_rfl

/-- **More bytes show more data.** The induction is on the pieces that are all there. -/
theorem decodeFrom_append_shows {position : Nat} {bytes decoded : Bytes}
    (h : decodeFrom position bytes = .partly decoded) (later : Bytes) :
    (decodeFrom position (bytes ++ later)).Shows decoded := by
  fun_induction decodeFrom position bytes generalizing decoded with
  | case1 =>
    cases h
    exact Outcome.shows_nil _
  | case3 =>
    cases h
    exact Outcome.shows_nil _
  | case6 position bytes line rest hs size hz hsz start hw first second after hd hcr =>
    rename_i ih
    obtain ⟨d, hd', rfl⟩ := after_eq_partly.mp h
    have hlen := congrArg List.length hd
    simp only [List.length_drop, List.length_cons] at hlen
    -- The piece is all there, so it is the rest that goes on.
    rw [decodeFrom_of_long (Bytes.splitCrlf?_append hs later) hsz hz (Nat.not_le.mp hw)
      (by rw [List.drop_append_of_le_length (by omega), hd, List.cons_append, List.cons_append]),
      if_pos hcr, List.take_append_of_le_length (by omega)]
    exact (ih hd').after _
  | case8 position bytes line rest hs size hz hsz =>
    cases h
    have hfront : rest.take size <+: (rest ++ later).take size := by
      rw [List.take_append]
      exact List.prefix_append _ _
    exact (shows_of_piece (Bytes.splitCrlf?_append hs later) hsz hz).mono hfront
  | _ => cases h

end Chunked

/-! ### Bodies -/

section Bodies

variable {framing : Framing} {bytes later decoded decoded' : Bytes} {n n' : Nat}

/-- At the end of the stream a body of a known length is what there is of it. -/
theorem readBody_length_atEnd (size : Nat) (bytes : Bytes) :
    readBody (.length size) true bytes =
      .complete (min size bytes.length) (bytes.take size) := by
  rw [readBody]
  split
  · rename_i hle
    rw [Nat.min_eq_left hle]
  · rename_i hgt
    have hle := Nat.le_of_not_le hgt
    rw [if_pos rfl, Nat.min_eq_right hle, List.take_of_length_le hle]

/-- A chunked body that breaks off may be all there with more bytes, or break off later. -/
theorem readBody_append_of_partly (hd : Chunked.decode bytes = .partly decoded)
    (h : readBody .chunked true (bytes ++ later) = .complete n decoded') :
    bytes.length ≤ n ∧ decoded <+: decoded' := by
  have hshows := Chunked.decodeFrom_append_shows hd later
  simp only [readBody] at h
  split at h
  · rename_i hd'
    cases h
    rw [show Chunked.decodeFrom 0 (bytes ++ later) = _ from hd'] at hshows
    have := Chunked.lt_of_decodeFrom_append hd hd'
    exact ⟨by omega, hshows⟩
  · rename_i hd'
    cases h
    rw [show Chunked.decodeFrom 0 (bytes ++ later) = _ from hd'] at hshows
    exact ⟨by simp, hshows⟩
  · cases h

/-- **More bytes make more of a body** at the end of the stream, if they make one at all. -/
theorem readBody_atEnd_append (h : readBody framing true bytes = .complete n decoded)
    (h' : readBody framing true (bytes ++ later) = .complete n' decoded') :
    n ≤ n' ∧ decoded <+: decoded' := by
  cases framing with
  | empty =>
    cases h
    cases h'
    exact ⟨Nat.le_refl 0, List.prefix_rfl⟩
  | length size =>
    rw [readBody_length_atEnd] at h h'
    cases h
    cases h'
    rw [List.length_append, List.take_append]
    exact ⟨by omega, List.prefix_append _ _⟩
  | untilEnd =>
    cases h
    cases h'
    exact ⟨by simp, List.prefix_append _ _⟩
  | chunked =>
    rcases readBody_atEnd h with hsame | ⟨hi, rfl⟩
    · rw [readBody_append (by simp [hsame]), hsame] at h'
      cases h'
      exact ⟨Nat.le_refl n, List.prefix_rfl⟩
    · simp only [readBody] at hi h
      split at hi
      · cases hi
      · rename_i d hd
        rw [hd] at h
        cases h
        exact readBody_append_of_partly hd h'
      · cases hi

end Bodies

/-! ### Requests -/

/-- **A request that is the beginning of another one**: all of its head, and as much of its body as
there is. -/
structure Taken.IsBeginningOf (t t' : Taken Request) : Prop where
  head : t.head = t'.head
  method : t.message.method = t'.message.method
  path : t.message.path = t'.message.path
  version : t.message.version = t'.message.version
  headers : t.message.headers = t'.message.headers
  raw : t.raw <+: t'.raw
  body : t.message.body <+: t'.message.body

theorem Taken.IsBeginningOf.refl (t : Taken Request) : t.IsBeginningOf t :=
  ⟨rfl, rfl, rfl, rfl, rfl, List.prefix_rfl, List.prefix_rfl⟩

section Requests

variable {bytes later : Bytes} {h b h' b' : Nat} {m m' : Request}

/-- **More bytes make more of a request** at the end of the stream, if they make one at all: its
head is the same. -/
theorem parseRequest_atEnd_append (hp : parseRequest true bytes = .complete h b m)
    (hp' : parseRequest true (bytes ++ later) = .complete h' b' m') :
    h' = h ∧ b ≤ b' ∧
      ∃ (head : RequestHead) (decoded decoded' : Bytes), m = head.withBody decoded ∧
        m' = head.withBody decoded' ∧ decoded <+: decoded' := by
  rw [parseRequest_eq] at hp hp'
  obtain ⟨head, rest, f, decoded, hd, hf, hb, rfl, rfl⟩ := parseBy_eq_complete.mp hp
  obtain ⟨head', rest', f', decoded', hd', hf', hb', rfl, rfl⟩ := parseBy_eq_complete.mp hp'
  rw [steady_anyRequestHead.done hd later] at hd'
  cases hd'
  obtain rfl : f = f' := Option.some.inj (hf.symm.trans hf')
  obtain ⟨hle, hpre⟩ := readBody_atEnd_append hb hb'
  refine ⟨?_, hle, head, decoded, decoded', rfl, rfl, hpre⟩
  simp only [List.length_append]
  omega

end Requests

/-! ### All requests -/

/-- **Requests that are cut short**: those of the whole stream up to the last one, which is the
beginning of the one in its place if there is one. -/
inductive CutShort : List (Taken Request) → List (Taken Request) → Prop
  /-- No request is left. -/
  | none {whole : List (Taken Request)} : CutShort [] whole
  /-- The last request. -/
  | last {t : Taken Request} {whole : List (Taken Request)} :
      (∀ t', whole.head? = some t' → t.IsBeginningOf t') → CutShort [t] whole
  /-- A request of both. -/
  | cons {t : Taken Request} {cut whole : List (Taken Request)} :
      CutShort cut whole → CutShort (t :: cut) (t :: whole)

namespace CutShort

variable {cut whole : List (Taken Request)}

/-- All requests but the last one are those of the whole stream. -/
theorem dropLast (h : CutShort cut whole) : cut.dropLast <+: whole := by
  induction h with
  | none => exact List.nil_prefix
  | last => exact List.nil_prefix
  | @cons t cut whole _ ih =>
    cases cut with
    | nil => exact List.nil_prefix
    | cons t' cut =>
      rw [List.dropLast_cons_cons]
      exact (List.prefix_cons_inj t).mpr ih

/-- The last one is the beginning of the one in its place. -/
theorem last_isBeginningOf (h : CutShort cut whole) {t t' : Taken Request}
    (hl : cut.getLast? = some t) (ht' : whole[cut.length - 1]? = some t') : t.IsBeginningOf t' := by
  induction h with
  | none => cases hl
  | last hlast =>
    cases hl
    exact hlast t' (by rwa [List.head?_eq_getElem?])
  | @cons s cut whole _ ih =>
    cases cut with
    | nil =>
      cases hl
      cases ht'
      exact .refl _
    | cons s' cut =>
      rw [List.getLast?_cons_cons] at hl
      exact ih hl ht'

end CutShort

/-- **More bytes hold the same requests**, but for the last one. The induction is on the requests;
one that the end of the stream does not cut short stays what it is, and one that it does takes all
the bytes that are left. -/
theorem requestsOf_append (bytes later : Bytes) :
    CutShort (requestsOf bytes) (requestsOf (bytes ++ later)) := by
  fun_induction requestsOf bytes with
  | case1 => exact .none
  | case2 bytes hb h b m hp ih =>
    have hle := length_le_of_parseRequest hp
    rcases parseRequest_atEnd hp with hp' | ⟨hi, hall⟩
    · have happend : parseRequest true (bytes ++ later) = .complete h b m := by
        rw [parseRequest_append (by simp [hp']), hp']
      rw [requestsOf_of_complete (by simp [hb]) happend, List.take_append_of_le_length (by omega),
        List.drop_append_of_le_length (by omega), List.drop_append_of_le_length hle,
        List.take_append_of_le_length (by rw [List.length_drop]; omega)]
      exact .cons ih
    · rw [hall, List.drop_length, requestsOf_nil]
      refine .last fun t' ht' => ?_
      obtain ⟨rest, hrest⟩ := List.head?_eq_some_iff.mp ht'
      obtain ⟨n, c, m', hp', -, rfl, -, -, -⟩ := exists_of_requestsOf_cons hrest
      obtain ⟨rfl, hbc, head, decoded, decoded', rfl, rfl, hpre⟩ := parseRequest_atEnd_append hp hp'
      refine ⟨?_, rfl, rfl, rfl, rfl, ?_, hpre⟩
      · exact (List.take_append_of_le_length (by omega)).symm
      · change (bytes.drop _).take b <+: ((bytes ++ later).drop _).take _
        rw [List.drop_append_of_le_length (by omega), List.take_append]
        exact (List.take_prefix_take_left hbc).trans (List.prefix_append _ _)
  | case3 => exact .none

/-! ### Runs without a server -/

section Silent

variable {stream : Stream}

/-- A server that sends nothing answers nothing. -/
theorem not_switches_of_silent (h : stream.bytes .serverToClient = []) :
    (dispatch stream).events.any switches = false := by
  rw [List.any_eq_false]
  intro event he hs
  obtain ⟨before, after, hsplit⟩ := List.append_of_mem he
  have horigin := (reached_dispatch stream).origin_of_event hsplit
  have hd : event.direction = .serverToClient := by
    cases event with
    | request => cases hs
    | response => rfl
  have hnone : stream.originsBefore .serverToClient stream.chunks.length = [] := by
    rw [← List.length_eq_zero_iff, Stream.length_originsBefore,
      Stream.bytesBefore_of_length_le (Nat.le_refl _), h, List.length_nil]
  rw [hd, hnone] at horigin
  cases horigin

/-- The requests of a stream without answers are all requests of its client. -/
theorem requestsIn_of_silent (h : stream.bytes .serverToClient = []) :
    requestsIn (dispatch stream).events = requestsOf (stream.bytes .clientToServer) :=
  requestsIn_of_not_switches (not_switches_of_silent h)

end Silent

/-- **A stream that is cut short only loses what is cut off.** Of two streams without answers let
the client's bytes of one be the beginning of those of the other. Its requests are then those of the
other one up to the last, and where the other has a request in the place of the last, the last is
the beginning of that: it has the same head, method, path, version and fields, and its body, on the
wire and decoded, is the beginning of the body there. -/
theorem requests_of_truncated {cut whole : Stream} (hcut : cut.bytes .serverToClient = [])
    (hwhole : whole.bytes .serverToClient = [])
    (hpre : cut.bytes .clientToServer <+: whole.bytes .clientToServer) :
    let fewer := requestsIn (dispatch cut).events
    let all := requestsIn (dispatch whole).events
    fewer.dropLast <+: all ∧
      ∀ t t', fewer.getLast? = some t → all[fewer.length - 1]? = some t' → t.IsBeginningOf t' := by
  obtain ⟨later, hlater⟩ := hpre
  have h := requestsOf_append (cut.bytes .clientToServer) later
  rw [hlater, ← requestsIn_of_silent hcut, ← requestsIn_of_silent hwhole] at h
  exact ⟨h.dropLast, fun t t' => h.last_isBeginningOf⟩

/-- A client that sends some chunks and gets no answer. -/
def unanswered (sent : List String) : Stream where
  metadata := { id := 1, serverHost := "192.0.2.1", serverPort := 80 }
  chunks := sent.map fun text => ⟨.clientToServer, Bytes.ascii text, ⟨0, 0⟩⟩

/-- The beginning of an upload, cut off within a piece of its body. -/
def cutUpload : Stream :=
  unanswered ["GET / HTTP/1.1\r\n\r\nPOST /up HTTP/1.1\r\n",
    "Transfer-Encoding: chunked\r\n\r\n3\r\nab"]

/-- All of the upload and a request behind it, in other chunks. -/
def wholeUpload : Stream :=
  unanswered ["GET / HTTP/1.1\r\n\r\nPOST /up HTTP/1.1\r\nTransfer-Encoding: ",
    "chunked\r\n\r\n3\r\nabc\r\n0\r\n\r\nGET /x HTTP/1.1\r\n\r\n"]

theorem requests_of_cutUpload :
    (requestsIn (dispatch cutUpload).events).dropLast <+: requestsIn (dispatch wholeUpload).events ∧
      ∃ t t', (requestsIn (dispatch cutUpload).events).getLast? = some t ∧
        (requestsIn (dispatch wholeUpload).events)[1]? = some t' ∧ t.IsBeginningOf t' ∧
        t.message.body = Bytes.ascii "ab" ∧ t'.message.body = Bytes.ascii "abc" := by
  have hlen : (requestsIn (dispatch cutUpload).events).length = 2 := by decide +kernel
  have hcut : (requestsIn (dispatch cutUpload).events).getLast?.map (·.message.body) =
      some (Bytes.ascii "ab") := by decide +kernel
  have hwhole : (requestsIn (dispatch wholeUpload).events)[1]?.map (·.message.body) =
      some (Bytes.ascii "abc") := by decide +kernel
  obtain ⟨hdrop, hlast⟩ := @requests_of_truncated cutUpload wholeUpload (by decide +kernel)
    (by decide +kernel) (by decide +kernel)
  obtain ⟨t, ht, hbody⟩ := Option.map_eq_some_iff.mp hcut
  obtain ⟨t', ht', hbody'⟩ := Option.map_eq_some_iff.mp hwhole
  rw [hlen] at hlast
  exact ⟨hdrop, t, t', ht, ht', hlast t t' ht ht', hbody, hbody'⟩

end HttpReplay.Http
