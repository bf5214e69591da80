import HttpReplay.Convert
import HttpReplay.Proofs.Dispatch.Account

/-!
# The requests of a stream

The client's bytes come in chunks, with the server's in between, and a request is taken as soon as
it is there. None of this shows in the requests: they are those that one finds by reading all of
the client's bytes at once (`HttpReplay.Http.requestsOf`), up to the point where the server
switches the protocol. The invariant is that the requests taken so far, and those in what is
pending together with what is still to come, are all the requests there are.

* `HttpReplay.Http.Reached.inStep` is the invariant;
* `HttpReplay.Http.lt_of_waits` says that a request whose bytes are there has been taken where the
  client's direction waits for more;
* `HttpReplay.Http.not_taken_before` and `HttpReplay.Http.taken_after` say that a request is taken
  with the chunk of its last byte;
* `HttpReplay.Http.requests_of_dispatch` puts it together, and adds that the script of a stream
  depends on the client's bytes only.
-/

namespace HttpReplay.Http

open Dispatch Event

/-! ### Requests that were taken -/

namespace Event

/-- The requests among some events. -/
def requestsIn (events : List Event) : List (Taken Request) := events.filterMap request?

/-- Does a response switch the protocol? -/
def switches : Event → Bool
  | .request .. => false
  | .response _ _ _ message => message.status = 101

@[simp] theorem requestsIn_nil : requestsIn [] = [] := rfl

theorem requestsIn_append (before after : List Event) :
    requestsIn (before ++ after) = requestsIn before ++ requestsIn after :=
  List.filterMap_append

theorem wireOf_client (events : List Event) :
    wireOf .clientToServer events = (requestsIn events).flatMap Taken.wire := by
  induction events with
  | nil => rfl
  | cons event events ih =>
    rw [← List.singleton_append, wireOf_append, wireOf_singleton, requestsIn_append,
      List.flatMap_append, ih]
    cases event with
    | request start head raw m => simp [direction, requestsIn, request?, wire, Taken.wire]
    | response start head raw m => simp [direction, requestsIn, request?]

end Event

/-! ### The invariant -/

variable {stream : Stream} {n : Nat} {s s' : Dispatch}

/-- All requests of a stream. -/
def allRequests (stream : Stream) : List (Taken Request) :=
  requestsOf (stream.bytes .clientToServer)

/-- **The requests taken so far are in step** with all the requests of the stream. -/
structure InStep (stream : Stream) (n : Nat) (s : Dispatch) : Prop where
  /-- While the client's direction goes on, the other requests are in what is left. -/
  going : (s.pending .clientToServer).gaveUp = false →
    allRequests stream = requestsIn s.events ++
      requestsOf ((s.pending .clientToServer).buffer ++ stream.bytesFrom .clientToServer n)
  taken : requestsIn s.events <+: allRequests stream
  /-- It is given up where there are no more requests, or else because of a switch. -/
  stopped : (s.pending .clientToServer).gaveUp = true →
    requestsIn s.events = allRequests stream ∨ s.events.any switches = true

/-- What the client's bytes begin with does not depend on what comes later. -/
theorem parseRequest_bytesFrom {atEnd : Bool} {bytes : Bytes}
    (he : atEnd = true → n = stream.chunks.length)
    (h : atEnd = true ∨ parseRequest atEnd bytes ≠ .incomplete) :
    parseRequest true (bytes ++ stream.bytesFrom .clientToServer n) = parseRequest atEnd bytes := by
  cases atEnd with
  | true => rw [he rfl, Stream.bytesFrom_length, List.append_nil]
  | false =>
    rcases h with h | h
    · cases h
    · exact parseRequest_append h true _

theorem inStep_opening (stream : Stream) : InStep stream 0 (opening stream) := by
  refine ⟨fun _ => rfl, List.nil_prefix, ?_⟩
  intro h
  cases h

theorem InStep.arrive {chunk : Chunk} (h : InStep stream n (stage stream n))
    (hc : stream.chunks[n]? = some chunk) :
    InStep stream (n + 1) ((stage stream n).arrive n chunk) := by
  refine ⟨fun hg => ?_, by rw [events_arrive]; exact h.taken, fun hg => ?_⟩
  · rw [gaveUp_arrive] at hg
    rw [events_arrive, h.going hg, Stream.bytesFrom_of_getElem? hc, (pending_arrive hg n chunk).1,
      List.append_assoc]
  · rw [gaveUp_arrive] at hg
    rw [events_arrive]
    exact h.stopped hg

theorem InStep.request {id start h b : Nat} {atEnd : Bool} {m : Request} (hi : InStep stream n s)
    (he : atEnd = true → n = stream.chunks.length) (hg : s.client.gaveUp = false)
    (hb : s.client.buffer ≠ []) (hst : s.client.startChunk? = some start)
    (hp : parseRequest atEnd s.client.buffer = .complete h b m) :
    InStep stream n (s.takeRequest id start h b m) := by
  have ht := takes_takeRequest id hg hb hst hp
  have hle := length_le_of_parseRequest hp
  have hp' : parseRequest true (s.client.buffer ++ stream.bytesFrom .clientToServer n) =
      .complete h b m := by
    rw [parseRequest_bytesFrom he (Or.inr (by simp [hp])), hp]
  have hall : allRequests stream =
      requestsIn (s.takeRequest id start h b m).events ++
        requestsOf (s.client.buffer.drop (h + b) ++ stream.bytesFrom .clientToServer n) := by
    rw [hi.going hg, ht.events, requestsIn_append, List.append_assoc]
    refine congrArg (requestsIn s.events ++ ·) ?_
    rw [show s.pending .clientToServer = s.client from rfl,
      requestsOf_of_complete (by simp [hb]) hp', List.take_append_of_le_length (by omega),
      List.drop_append_of_le_length (by omega), List.drop_append_of_le_length hle,
      List.take_append_of_le_length (by rw [List.length_drop]; omega)]
    rfl
  refine ⟨fun _ => hall, ⟨_, hall.symm⟩, fun hg' => ?_⟩
  have : s.client.gaveUp = true := hg'
  rw [hg] at this
  cases this

/-- The server's messages leave the requests alone. -/
theorem InStep.response {event : Event} (hi : InStep stream n s) (ht : s.Takes event s')
    (hr : event.request? = none) (hd : event.direction = .serverToClient) :
    InStep stream n s' := by
  have hevents : requestsIn s'.events = requestsIn s.events := by
    rw [ht.events, requestsIn_append]
    simp [requestsIn, hr]
  have hclient : s'.pending .clientToServer = s.pending .clientToServer := by
    rw [ht.pending, hd, if_neg (by decide)]
  refine ⟨fun hg => ?_, hevents ▸ hi.taken, fun hg => ?_⟩
  · rw [hclient] at hg ⊢
    rw [hevents, hi.going hg]
  · rw [hclient] at hg
    rw [hevents, ht.events]
    refine (hi.stopped hg).imp_right fun h => ?_
    rw [List.any_append, h, Bool.true_or]

/-- The client's direction may be given up where there are no more requests, and after a
switch. -/
theorem InStep.giveUp {id : Nat} {d : Direction} {why : Reason} (hi : InStep stream n s)
    (h : d = .clientToServer → (s.pending d).gaveUp = false →
      requestsOf ((s.pending d).buffer ++ stream.bytesFrom .clientToServer n) = [] ∨
        s.events.any switches = true) :
    InStep stream n (s.giveUp id d why) := by
  refine ⟨fun hg => ?_, by rw [events_giveUp]; exact hi.taken, fun hg => ?_⟩
  · rw [← Bool.not_eq_true, gaveUp_giveUp, not_or, Bool.not_eq_true] at hg
    rw [events_giveUp, pending_giveUp, if_neg hg.1]
    exact hi.going hg.2
  · rw [events_giveUp]
    rcases (gaveUp_giveUp _ _ _ _ _).mp hg with rfl | hg'
    · cases hs : (s.pending .clientToServer).gaveUp with
      | true => exact hi.stopped hs
      | false =>
        refine (h rfl hs).imp_left fun hnone => ?_
        rw [hi.going hs, hnone, List.append_nil]
    · exact hi.stopped hg'

theorem InStep.giveUp_server {id : Nat} {why : Reason} (hi : InStep stream n s) :
    InStep stream n (s.giveUp id .serverToClient why) := by
  refine hi.giveUp ?_
  intro hd
  cases hd

/-- The client's direction is given up where no request begins. -/
theorem InStep.giveUp_client {id : Nat} {why : Reason} {atEnd : Bool} (hi : InStep stream n s)
    (he : atEnd = true → n = stream.chunks.length)
    (hp : parseRequest atEnd s.client.buffer = .invalid why ∨
      atEnd = true ∧ parseRequest true s.client.buffer = .incomplete) :
    InStep stream n (s.giveUp id .clientToServer why) := by
  refine hi.giveUp fun _ _ => Or.inl (requestsOf_of_ne_complete fun h b m hc => ?_)
  change parseRequest true (s.client.buffer ++ stream.bytesFrom .clientToServer n) =
    .complete h b m at hc
  rcases hp with hp | ⟨rfl, hp⟩
  · rw [parseRequest_bytesFrom he (Or.inr (by simp [hp])), hp] at hc
    cases hc
  · rw [parseRequest_bytesFrom he (Or.inl rfl), hp] at hc
    cases hc

/-- **All states of a run are in step.** -/
theorem Reached.inStep (h : Reached stream n s) : InStep stream n s := by
  induction h with
  | opening => exact inStep_opening stream
  | arrive _ hc ih => exact ih.arrive hc
  | step _ he hstep ih =>
    cases hstep with
    | request hg hb hst hp => exact ih.request he hg hb hst hp
    | response hg hb hst hp hm => exact ih.response (takes_takeResponse _ hg hb hst hp) rfl rfl
    | switch hg hb hst hp hm =>
      have ht := takes_takeResponse stream.metadata.id hg hb hst hp
      refine (ih.response ht rfl rfl).giveUp_server.giveUp fun _ _ => Or.inr ?_
      rw [events_giveUp, ht.events, List.any_append]
      simp [responseEvent, switches, hm]
    | badRequest hg hb hp => exact ih.giveUp_client he hp
    | badResponse => exact ih.giveUp_server

/-! ### When a request is taken -/

theorem Dispatch.Step.events_mono {id : Nat} {atEnd : Bool} (hs : s.Step id atEnd s') :
    s.events <+: s'.events := by
  rcases hs.events_cases with h | ⟨event, t, ht, h⟩
  · exact h ▸ List.prefix_rfl
  · rw [h, ht.events]
    exact List.prefix_append _ _

/-- What has been taken at a stage stays taken. -/
theorem events_stage_mono {i : Nat} (hi : i ≤ stream.chunks.length) :
    (stage stream i).events <+: (dispatch stream).events :=
  (holds_from_stage (P := fun s => (stage stream i).events <+: s.events) List.prefix_rfl
    (fun s index chunk h => by rw [events_arrive]; exact h)
    (fun s s' atEnd h hs => h.trans hs.events_mono) hi).2

theorem requestsIn_mono {before after : List Event} (h : before <+: after) :
    requestsIn before <+: requestsIn after := by
  obtain ⟨rest, rfl⟩ := h
  rw [requestsIn_append]
  exact List.prefix_append _ _

theorem Dispatch.Step.requestsIn_of_gaveUp {id : Nat} {atEnd : Bool} (hs : s.Step id atEnd s')
    (hg : s.client.gaveUp = true) : requestsIn s'.events = requestsIn s.events := by
  cases hs with
  | request hng => exact absurd hg (by simp [hng])
  | response hng hb hst hp hm =>
    rw [(takes_takeResponse _ hng hb hst hp).events, requestsIn_append]
    simp [responseEvent, requestsIn, request?]
  | switch hng hb hst hp hm =>
    rw [events_giveUp, events_giveUp, (takes_takeResponse _ hng hb hst hp).events,
      requestsIn_append]
    simp [responseEvent, requestsIn, request?]
  | badRequest => rw [events_giveUp]
  | badResponse => rw [events_giveUp]

/-- Once the client's direction has been given up no request is taken. -/
theorem requestsIn_of_gaveUp {i : Nat} (hi : i ≤ stream.chunks.length)
    (hg : (stage stream i).client.gaveUp = true) :
    requestsIn (dispatch stream).events = requestsIn (stage stream i).events :=
  (holds_from_stage
    (P := fun s => s.client.gaveUp = true ∧
      requestsIn s.events = requestsIn (stage stream i).events) ⟨hg, rfl⟩
    (fun s index chunk h => ⟨(gaveUp_arrive s index chunk .clientToServer).trans h.1,
      by rw [events_arrive]; exact h.2⟩)
    (fun s s' atEnd h hs => ⟨hs.gaveUp_mono (d := .clientToServer) h.1,
      (hs.requestsIn_of_gaveUp h.1).trans h.2⟩) hi).2.2

/-- The bytes that the first requests take. -/
def wireOfFirst (k : Nat) (requests : List (Taken Request)) : Bytes :=
  (requests.take k).flatMap Taken.wire

theorem le_length_wireOfFirst {k : Nat} {taken done rest : List (Taken Request)}
    {first : Taken Request} (hpre : taken <+: done ++ first :: rest) (hk : k < taken.length)
    (hdone : done.length ≤ k) :
    (done.flatMap Taken.wire).length + first.wire.length ≤ (wireOfFirst (k + 1) taken).length := by
  obtain ⟨more, hmore⟩ := hpre
  have htake : taken.take (k + 1) = done ++ first :: rest.take (k - done.length) := by
    rw [← List.take_append_of_le_length (Nat.succ_le_of_lt hk), hmore, List.take_append,
      List.take_of_length_le (by omega), Nat.succ_sub hdone, List.take_succ_cons]
  rw [wireOfFirst, htake, List.flatMap_append, List.flatMap_cons, List.length_append,
    List.length_append]
  omega

/-- The requests that were taken before a position end before it. -/
theorem length_wireOf_stage_le {i : Nat} (hi : i ≤ stream.chunks.length) :
    ((requestsIn (stage stream i).events).flatMap Taken.wire).length ≤
      (stream.bytesBefore .clientToServer i).length := by
  rw [← wireOf_client]
  exact ((reached_stage hi).ledger.taken .clientToServer).length_le

/-- A request is not taken before its last byte is there. -/
theorem not_taken_before {i k : Nat} (hi : i ≤ stream.chunks.length)
    (h : (stream.bytesBefore .clientToServer i).length <
      (wireOfFirst (k + 1) (requestsIn (dispatch stream).events)).length) :
    (requestsIn (stage stream i).events)[k]? = none := by
  rw [List.getElem?_eq_none_iff]
  by_contra hlt
  obtain ⟨later, hl⟩ := requestsIn_mono (events_stage_mono hi)
  have hle := length_wireOf_stage_le hi
  rw [wireOfFirst, ← hl, List.take_append_of_le_length (by omega)] at h
  have hsplit := List.take_append_drop (k + 1) (requestsIn (stage stream i).events)
  rw [← hsplit, List.flatMap_append, List.length_append] at hle
  omega

/-- **What waits is no whole request**: where the client's direction waits, the next request ends
behind what is pending, unless the end of the stream cuts it short. -/
theorem next_request_of_waits {bytes later : Bytes} {t : Taken Request}
    {rest : List (Taken Request)}
    (hw : bytes = [] ∨ parseRequest false bytes = .incomplete)
    (h : requestsOf (bytes ++ later) = t :: rest) :
    bytes.length < t.wire.length ∨ t.IsCut ∧ rest = [] := by
  obtain ⟨n, b, m, hp, hne, -, hwire, hlen, rfl⟩ := exists_of_requestsOf_cons h
  rcases hw with rfl | hw
  · have := takesByte_parseRequest _ _ n b m hp hne
    rw [List.length_nil]
    omega
  · rcases parseRequest_atEnd hp with hp' | ⟨hi, hall⟩
    · have := lt_of_parseRequest_append hw hp'
      omega
    · rw [hall, List.take_length] at hwire
      rw [hall, List.drop_length, requestsOf_nil]
      exact Or.inr ⟨by rw [Taken.IsCut, hwire]; exact hi, rfl⟩

/-- **A request is taken once its bytes are there**, where the client's direction waits for more,
unless the end of the stream cuts it short. -/
theorem lt_of_waits {i k : Nat} {t : Taken Request} (hi : i ≤ stream.chunks.length)
    (hg : (stage stream i).client.gaveUp = false)
    (hw : ((stage stream i).pending .clientToServer).buffer = [] ∨
      (stage stream i).Waits .clientToServer)
    (hk : (allRequests stream)[k]? = some t) (hcut : ¬ t.IsCut)
    (h : (wireOfFirst (k + 1) (allRequests stream)).length ≤
      (stream.bytesBefore .clientToServer i).length) :
    k < (requestsIn (stage stream i).events).length := by
  by_contra hlt
  -- Otherwise the request is still pending, though all of it is there and nothing waits.
  have hklt := (List.getElem?_eq_some_iff.mp hk).1
  have hgoing := congrArg List.length ((reached_stage hi).ledger.going .clientToServer hg)
  rw [List.length_append, wireOf_client] at hgoing
  have hall := (reached_stage hi).inStep.going hg
  rw [hall, List.getElem?_append_right (Nat.not_lt.mp hlt)] at hk
  -- The request is among those in what is left, so there is a next one.
  cases hleft : requestsOf (((stage stream i).pending .clientToServer).buffer ++
      stream.bytesFrom .clientToServer i) with
  | nil =>
    rw [hleft] at hk
    cases hk
  | cons first rest =>
    rw [hleft] at hall hk
    rcases next_request_of_waits hw hleft with hlong | ⟨hfirst, rfl⟩
    · have hpre : allRequests stream <+: requestsIn (stage stream i).events ++ first :: rest :=
        hall ▸ List.prefix_rfl
      have := le_length_wireOfFirst hpre hklt (Nat.not_lt.mp hlt)
      omega
    · rw [List.getElem?_singleton] at hk
      split at hk
      · cases hk
        exact hcut hfirst
      · cases hk

/-- A request that is among those taken so far is the one with its number. -/
theorem getElem?_requestsIn {k : Nat} {t : Taken Request} {events : List Event}
    {requests : List (Taken Request)} (hpre : requestsIn events <+: requests)
    (hk : requests[k]? = some t) (hlt : k < (requestsIn events).length) :
    (requestsIn events)[k]? = some t := by
  obtain ⟨later, rfl⟩ := hpre
  rwa [List.getElem?_append_left hlt] at hk

/-- **A request is taken once its last byte is there**, unless the end of the stream cuts it
short. -/
theorem taken_after {i k : Nat} {chunk : Chunk} {t : Taken Request}
    (hc : stream.chunks[i]? = some chunk) (hd : chunk.direction = .clientToServer)
    (hk : (requestsIn (dispatch stream).events)[k]? = some t) (hcut : ¬ t.IsCut)
    (h : (wireOfFirst (k + 1) (requestsIn (dispatch stream).events)).length ≤
      (stream.bytesBefore .clientToServer (i + 1)).length) :
    (requestsIn (stage stream (i + 1)).events)[k]? = some t := by
  have hi : i + 1 ≤ stream.chunks.length := (List.getElem?_eq_some_iff.mp hc).1
  have hklt := (List.getElem?_eq_some_iff.mp hk).1
  have hsettled := stage_settled hc
  rw [hd] at hsettled
  cases hg : (stage stream (i + 1)).client.gaveUp with
  | true => rwa [requestsIn_of_gaveUp hi hg] at hk
  | false =>
    have hwaits := hsettled.resolve_left (by rw [pending, hg]; decide)
    obtain ⟨more, hmore⟩ := (reached_dispatch stream).inStep.taken
    refine getElem?_requestsIn (requestsIn_mono (events_stage_mono hi)) hk
      (lt_of_waits hi hg hwaits (t := t) ?_ hcut ?_)
    · rw [← hmore, List.getElem?_append_left hklt, hk]
    · rwa [wireOfFirst, ← hmore, List.take_append_of_le_length (Nat.succ_le_of_lt hklt)]

/-- Every request that is taken ends in some chunk of the client. -/
theorem exists_chunk_of_end {k : Nat} {t : Taken Request}
    (hk : (requestsIn (dispatch stream).events)[k]? = some t) :
    ∃ i chunk, stream.chunks[i]? = some chunk ∧ chunk.direction = .clientToServer ∧
      (stream.bytesBefore .clientToServer i).length <
        (wireOfFirst (k + 1) (requestsIn (dispatch stream).events)).length ∧
      (wireOfFirst (k + 1) (requestsIn (dispatch stream).events)).length ≤
        (stream.bytesBefore .clientToServer (i + 1)).length := by
  have htaken := ((reached_dispatch stream).ledger.taken .clientToServer).length_le
  rw [wireOf_client] at htaken
  have ht : t ∈ allRequests stream :=
    (reached_dispatch stream).inStep.taken.subset (List.mem_of_getElem? hk)
  have hpos := List.length_pos_iff.mpr (wire_ne_nil_of_mem ht)
  generalize requestsIn (dispatch stream).events = taken at *
  have hsplit : (taken.flatMap Taken.wire).length =
      (wireOfFirst (k + 1) taken).length + ((taken.drop (k + 1)).flatMap Taken.wire).length := by
    rw [wireOfFirst, ← List.length_append, ← List.flatMap_append, List.take_append_drop]
  have hlast : t.wire.length ≤ (wireOfFirst (k + 1) taken).length := by
    rw [wireOfFirst, List.take_add_one, hk, List.flatMap_append, List.length_append]
    simp
  -- The chunk is that of the last byte of the request.
  have hlt : (wireOfFirst (k + 1) taken).length - 1 <
      (stream.originsBefore .clientToServer stream.chunks.length).length := by
    rw [Stream.length_originsBefore]
    omega
  obtain ⟨-, chunk, hc, hd, hbefore, hafter⟩ :=
    Stream.getElem?_originsBefore.mp (List.getElem?_eq_getElem hlt)
  exact ⟨_, chunk, hc, hd, by omega, by omega⟩

/-- **Unless the server switches the protocol**, the requests of a run are all there are. -/
theorem requestsIn_of_not_switches (h : (dispatch stream).events.any switches = false) :
    requestsIn (dispatch stream).events = allRequests stream := by
  have hi := (reached_dispatch stream).inStep
  -- At the end nothing of the client's is pending, or its direction was given up.
  cases hg : ((dispatch stream).pending .clientToServer).gaveUp with
  | true => exact (hi.stopped hg).resolve_right (by simp [h])
  | false =>
    have hgoing := hi.going hg
    have hover := (isOver_dispatch stream .clientToServer).resolve_left (by simp [hg])
    rw [hover, Stream.bytesFrom_length, List.append_nil, requestsOf_nil, List.append_nil] at hgoing
    exact hgoing.symm

/-! ### Scripts -/

theorem run_scripting (script : Script) (calls : List (Chunk × Event)) :
    Handler.run Conversion.scripting script calls =
      ((requestsIn (calls.map (·.2))).map (·.message)).foldl Script.push script := by
  induction calls generalizing script with
  | nil => rfl
  | cons call calls ih =>
    obtain ⟨chunk, event⟩ := call
    rw [Handler.run, ih]
    cases event <;> rfl

end HttpReplay.Http

namespace HttpReplay

open Http Http.Event

/-- **The artifact of a stream** is the script of the requests that its run takes. -/
theorem Stream.convert_artifact (now : Instant) (stream : Stream) :
    (stream.convert now).artifact =
      (Script.ofRequests stream.metadata
        ((requestsIn (dispatch stream).events).map (·.message))).finish
          (stream.firstTime?.getD now) := by
  have hcalls : (Dispatch.calls stream.chunks (dispatch stream).events).map (·.2) =
      (dispatch stream).events :=
    map_snd_calls fun event he => (reached_dispatch stream).start_lt he
  simp only [Stream.convert, Dispatch.kept, handle_eq, run_scripting, hcalls]
  rfl

namespace Http

/-- **The requests do not depend on the chunks.** Those that a run takes are a first part of those
that are read from all of the client's bytes at once, and all of them unless the server switches
the protocol. One that the end of the stream does not cut short is taken while the chunk with its
last byte is fed. So streams that agree in what is known of them and in the client's bytes, and
in which no protocol is switched, have the same script. -/
theorem requests_of_dispatch (stream : Stream) :
    let taken := requestsIn (dispatch stream).events
    let all := requestsOf (stream.bytes .clientToServer)
    taken <+: all ∧
    ((dispatch stream).events.any switches = false → taken = all) ∧
    (∀ k t, taken[k]? = some t → ¬ t.IsCut →
      ∃ i chunk, stream.chunks[i]? = some chunk ∧ chunk.direction = .clientToServer ∧
        (stream.bytesBefore .clientToServer i).length < (wireOfFirst (k + 1) taken).length ∧
        (wireOfFirst (k + 1) taken).length ≤
          (stream.bytesBefore .clientToServer (i + 1)).length ∧
        (requestsIn (stage stream i).events)[k]? = none ∧
        (requestsIn (stage stream (i + 1)).events)[k]? = some t) ∧
    ∀ (other : Stream) (now later : Instant), other.metadata = stream.metadata →
      other.bytes .clientToServer = stream.bytes .clientToServer →
      (dispatch stream).events.any switches = false →
      (dispatch other).events.any switches = false →
      (other.convert later).artifact.script = (stream.convert now).artifact.script := by
  refine ⟨(reached_dispatch stream).inStep.taken, requestsIn_of_not_switches, ?_, ?_⟩
  · intro k t hk hcut
    obtain ⟨i, chunk, hc, hd, hbefore, hafter⟩ := exists_chunk_of_end hk
    have hi : i < stream.chunks.length := (List.getElem?_eq_some_iff.mp hc).1
    exact ⟨i, chunk, hc, hd, hbefore, hafter, not_taken_before (Nat.le_of_lt hi) hbefore,
      taken_after hc hd hk hcut hafter⟩
  · intro other now later hm hbytes hno hno'
    rw [Stream.convert_artifact, Stream.convert_artifact, requestsIn_of_not_switches hno,
      requestsIn_of_not_switches hno', allRequests, allRequests, hm, hbytes]
    rfl

end Http

end HttpReplay
