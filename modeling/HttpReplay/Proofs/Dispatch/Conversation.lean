import HttpReplay.Proofs.Dispatch.Requests
import HttpReplay.Proofs.Http.SentMessages

/-!
# Whole conversations

A client and a server exchange messages, each putting its own on the wire one after the other, and
somebody captures the bytes of both in chunks of any size. A run over the capture finds exactly the
messages that were sent, however the bytes were cut and however the two directions were
interleaved, as long as no byte of a final response was captured before its request.

What makes the responses come out right is the queue of methods: where a byte of a final response
is pending, its request has been taken, and its method stands at the front of the queue.

* `HttpReplay.Http.IsConversation` are the exchanges, `HttpReplay.Http.Captures` says that a
  stream is a capture of them;
* `HttpReplay.Http.Follows` is the invariant of a run over a capture;
* `HttpReplay.Http.dispatch_conversation` is the theorem.
-/

namespace HttpReplay.Http

open Dispatch Event

/-! ### Captures -/

/-- **A conversation**: exchanges that can be sent, of which only the last may end with the
stream. -/
structure IsConversation (exchanges : List Exchange) : Prop where
  sendable : ∀ e ∈ exchanges, e.IsSendable
  ends : ∀ before e after, exchanges = before ++ e :: after →
    e.final.endsWithStream → after = []

/-- The number of bytes that the server sends before the final response of an exchange. -/
def finalAt (exchanges : List Exchange) (k : Nat) (e : Exchange) : Nat :=
  ((exchanges.take k).flatMap Exchange.responseWire).length + e.beforeFinal.length

/-- The number of bytes that the client sends up to the end of a request. -/
def requestEnd (exchanges : List Exchange) (k : Nat) : Nat :=
  ((exchanges.take (k + 1)).flatMap fun e => e.request.wire).length

/-- **A capture of a conversation**: the bytes of either direction are those that were sent, and a
byte of a final response only comes when all of its request has come. -/
structure Captures (stream : Stream) (exchanges : List Exchange) : Prop where
  client : stream.bytes .clientToServer = exchanges.flatMap fun e => e.request.wire
  server : stream.bytes .serverToClient = exchanges.flatMap Exchange.responseWire
  ordered : ∀ k e, exchanges[k]? = some e → ∀ n,
    finalAt exchanges k e < (stream.bytesBefore .serverToClient n).length →
    requestEnd exchanges k ≤ (stream.bytesBefore .clientToServer n).length

/-! ### Responses that were taken -/

namespace Event

/-- The responses among some events. -/
def responsesIn (events : List Event) : List (Taken Response) := events.filterMap response?

/-- How many final responses there are among some events. -/
def finalsIn (events : List Event) : Nat := events.countP isFinal

theorem responsesIn_append (before after : List Event) :
    responsesIn (before ++ after) = responsesIn before ++ responsesIn after :=
  List.filterMap_append

theorem wireOf_server (events : List Event) :
    wireOf .serverToClient events = (responsesIn events).flatMap Taken.wire := by
  induction events with
  | nil => rfl
  | cons event events ih =>
    rw [← List.singleton_append, wireOf_append, wireOf_singleton, responsesIn_append,
      List.flatMap_append, ih]
    cases event with
    | request start head raw m => simp [direction, responsesIn, response?]
    | response start head raw m => simp [direction, responsesIn, response?, wire, Taken.wire]

theorem finalsIn_append (before after : List Event) :
    finalsIn (before ++ after) = finalsIn before + finalsIn after :=
  List.countP_append

/-- Is a response the last one to its request? -/
def endsExchange (t : Taken Response) : Bool := 200 ≤ t.message.status

theorem finalsIn_eq (events : List Event) :
    finalsIn events = (responsesIn events).countP endsExchange := by
  induction events with
  | nil => rfl
  | cons event events ih =>
    rw [← List.singleton_append, finalsIn_append, responsesIn_append, List.countP_append, ih]
    cases event <;> rfl

end Event

/-! ### Where a response stands in a conversation -/

/-- The responses of a conversation, in order. -/
def allResponses (exchanges : List Exchange) : List SentResponse :=
  exchanges.flatMap Exchange.responses

theorem flatMap_wire_allResponses (exchanges : List Exchange) :
    (allResponses exchanges).flatMap SentResponse.wire =
      exchanges.flatMap Exchange.responseWire := by
  rw [allResponses, List.flatMap_assoc]
  rfl

/-- Is a response that is sent the last one to its request? -/
def SentResponse.endsExchange (r : SentResponse) : Bool := 200 ≤ r.status

theorem countP_interim {e : Exchange} (h : e.IsSendable) :
    e.interim.countP SentResponse.endsExchange = 0 := by
  refine List.countP_eq_zero.mpr fun r hr => ?_
  have := (h.interim r hr).2.1
  simp only [SentResponse.endsExchange, decide_eq_true_eq]
  omega

/-- **A response of a conversation** is interim, or else the final one of the exchange behind as
many exchanges as there are final responses before it. -/
theorem response_cases {exchanges : List Exchange} (h : ∀ e ∈ exchanges, e.IsSendable)
    {done rest : List SentResponse} {r : SentResponse}
    (hsplit : allResponses exchanges = done ++ r :: rest) :
    (∃ e ∈ exchanges, r ∈ e.interim) ∨
      ∃ before e after, exchanges = before ++ e :: after ∧ r = e.final ∧
        done.countP SentResponse.endsExchange = before.length ∧
        done.flatMap SentResponse.wire =
          before.flatMap Exchange.responseWire ++ e.beforeFinal ∧
        rest = allResponses after := by
  induction exchanges generalizing done with
  | nil => simp [allResponses] at hsplit
  | cons e exchanges ih =>
    obtain ⟨he, hexchanges⟩ := List.forall_mem_cons.mp h
    have hcons : allResponses (e :: exchanges) =
        e.interim ++ e.final :: allResponses exchanges := by
      simp [allResponses, Exchange.responses]
    have hfinal : e.final.endsExchange = true := decide_eq_true he.answers.1
    have hfirst : e.final = r → allResponses exchanges = rest → done = e.interim →
        ∃ before e' after, e :: exchanges = before ++ e' :: after ∧ r = e'.final ∧
          done.countP SentResponse.endsExchange = before.length ∧
          done.flatMap SentResponse.wire =
            before.flatMap Exchange.responseWire ++ e'.beforeFinal ∧
          rest = allResponses after := by
      rintro rfl rfl rfl
      exact ⟨[], e, exchanges, rfl, rfl, countP_interim he, rfl, rfl⟩
    rw [hcons] at hsplit
    -- The response stands behind the interim ones to the first request, or among them.
    rcases List.append_eq_append_iff.mp hsplit with ⟨middle, hdone, hrest⟩ | ⟨middle, hint, hrest⟩
    · rcases middle with _ | ⟨first, middle⟩
      · rw [List.nil_append, List.cons.injEq] at hrest
        rw [List.append_nil] at hdone
        exact Or.inr (hfirst hrest.1 hrest.2 hdone)
      · rw [List.cons_append, List.cons.injEq] at hrest
        obtain ⟨rfl, hrest⟩ := hrest
        rcases ih hexchanges hrest with ⟨e', he', hr⟩ | ⟨before, e', after, rfl, hr, hc, hw, ha⟩
        · exact Or.inl ⟨e', List.mem_cons_of_mem e he', hr⟩
        · refine Or.inr ⟨e :: before, e', after, rfl, hr, ?_, ?_, ha⟩
          · rw [hdone, List.countP_append, countP_interim he, List.countP_cons, hc, hfinal,
              List.length_cons]
            simp
          · rw [hdone, List.flatMap_append, List.flatMap_cons, hw, List.flatMap_cons,
              Exchange.responseWire, Exchange.responses, List.flatMap_append]
            simp
    · rcases middle with _ | ⟨first, middle⟩
      · rw [List.nil_append, List.cons.injEq] at hrest
        rw [List.append_nil] at hint
        exact Or.inr (hfirst hrest.1.symm hrest.2.symm hint.symm)
      · rw [List.cons_append, List.cons.injEq] at hrest
        refine Or.inl ⟨e, List.mem_cons_self, ?_⟩
        rw [hint, hrest.1]
        exact List.mem_append_right _ List.mem_cons_self

/-! ### Requests come in time -/

variable {stream : Stream} {exchanges : List Exchange} {n : Nat} {s s' : Dispatch}

/-- In the client's direction nothing more can be read before more bytes come. -/
def Dispatch.IsClientSettled (s : Dispatch) : Prop :=
  s.client.gaveUp = true ∨ s.client.buffer = [] ∨ s.Waits .clientToServer

theorem Dispatch.Step.isClientSettled {id : Nat} (hs : s.Step id false s')
    (h : s.IsClientSettled) : s'.IsClientSettled := by
  cases hs with
  | request hg hb hst hp =>
    rcases h with hg' | hb' | hw
    · rw [hg] at hg'
      cases hg'
    · exact absurd hb' hb
    · rw [Waits, hp] at hw
      cases hw
  | response => exact h
  | switch => exact Or.inl ((gaveUp_giveUp _ _ .clientToServer .clientToServer _).mpr (Or.inl rfl))
  | badRequest =>
    exact Or.inl ((gaveUp_giveUp _ _ .clientToServer .clientToServer _).mpr (Or.inl rfl))
  | badResponse => exact h

/-- **Between two chunks** the client's direction is settled, whichever direction the last one
had: the server's chunks leave it alone. -/
theorem isClientSettled_stage (h : n ≤ stream.chunks.length) :
    (stage stream n).IsClientSettled := by
  induction n with
  | zero =>
    rw [stage_zero]
    exact Or.inr (Or.inl rfl)
  | succ n ih =>
    have hc : stream.chunks[n]? = some stream.chunks[n] := List.getElem?_eq_getElem h
    cases hd : stream.chunks[n].direction with
    | clientToServer =>
      have := stage_settled hc
      rw [hd] at this
      exact this
    | serverToClient =>
      rw [stage_succ hc, feed_eq, hd]
      refine holds_of_steps (fun h hs => hs.isClientSettled h) (drain_steps _ _ _ _) ?_
      have hsame : ((stage stream n).arrive n stream.chunks[n]).client =
          (stage stream n).client := by
        rw [Dispatch.arrive, hd]
        split <;> rfl
      rw [IsClientSettled, Waits, hsame]
      exact ih (Nat.le_of_succ_le h)

theorem IsConversation.allRequests (h : IsConversation exchanges) (hc : Captures stream exchanges) :
    allRequests stream = exchanges.map fun e => e.request.taken := by
  have hsendable : ∀ r ∈ exchanges.map (·.request), r.IsSendable := by
    intro r hr
    obtain ⟨e, he, rfl⟩ := List.mem_map.mp hr
    exact (h.sendable e he).request
  have hsent := requestsOf_of_sent hsendable
  rw [List.flatMap_map, List.map_map] at hsent
  rw [Http.allRequests, hc.client]
  exact hsent

/-- **A request has been taken** once its last byte has come and the client's direction is
settled. -/
theorem taken_of_settled (h : IsConversation exchanges) (hc : Captures stream exchanges) {k : Nat}
    (hn : n ≤ stream.chunks.length) (hg : (stage stream n).client.gaveUp = false)
    (hk : k < exchanges.length)
    (hend : requestEnd exchanges k ≤ (stream.bytesBefore .clientToServer n).length) :
    k < (requestsIn (stage stream n).events).length := by
  have hwaits := (isClientSettled_stage hn).resolve_left (by simp [hg])
  refine lt_of_waits (t := exchanges[k].request.taken) hn hg hwaits ?_ ?_ ?_
  · rw [h.allRequests hc, List.getElem?_map, List.getElem?_eq_getElem hk, Option.map_some]
  · -- A request that is sent is not cut short.
    have hp := parseRequest_of_sent (h.sendable _ (List.getElem_mem hk)).request false []
    rw [List.append_nil] at hp
    rw [Taken.IsCut, SentRequest.wire_taken, hp]
    exact fun hcut => by cases hcut
  · have hwire : wireOfFirst (k + 1) (exchanges.map fun e => e.request.taken) =
        (exchanges.take (k + 1)).flatMap fun e => e.request.wire := by
      rw [wireOfFirst, ← List.map_take, List.flatMap_map]
      rfl
    rwa [h.allRequests hc, hwire]

/-! ### The invariant -/

/-- **A run follows a conversation**: it takes its responses in order, the queue holds the methods
of the requests that have no final response yet, and a request has been taken before a byte of its
final response is there. -/
structure Follows (exchanges : List Exchange) (stream : Stream) (n : Nat) (s : Dispatch) :
    Prop where
  going : ∀ d, (s.pending d).gaveUp = false
  responses : responsesIn s.events <+: (allResponses exchanges).map SentResponse.taken
  methods : s.methods =
    ((requestsIn s.events).map (·.message.method)).drop (finalsIn s.events)
  /-- At no time there are more final responses than requests. -/
  answered : ∀ before, before <+: s.events → finalsIn before ≤ (requestsIn before).length
  early : ∀ k e, exchanges[k]? = some e →
    finalAt exchanges k e < (stream.bytesBefore .serverToClient n).length →
    k < (requestsIn s.events).length
  quiet : ∀ r ∈ s.log, r.severity ≠ .warn

theorem follows_opening (exchanges : List Exchange) (stream : Stream) :
    Follows exchanges stream 0 (opening stream) where
  going := by rintro (_ | _) <;> rfl
  responses := List.nil_prefix
  methods := rfl
  answered := by
    intro before hpre
    rw [List.prefix_nil.mp hpre]
    exact Nat.le_refl 0
  early := by
    intro k e _ hlt
    rw [Stream.bytesBefore_zero] at hlt
    exact absurd hlt (Nat.not_lt_zero _)
  quiet := by
    intro r hr
    rw [List.mem_singleton.mp hr]
    intro h
    cases h

theorem log_arrive (s : Dispatch) (index : Nat) (chunk : Chunk) :
    (s.arrive index chunk).log = s.log := by
  rw [Dispatch.arrive]
  split
  · rfl
  · cases chunk.direction <;> rfl

/-- A byte of a final response only arrives when its request has been taken: all of the request has
arrived, and the client's direction is settled. -/
theorem Follows.arrive {chunk : Chunk} (hf : Follows exchanges stream n (stage stream n))
    (h : IsConversation exchanges) (hc : Captures stream exchanges)
    (hchunk : stream.chunks[n]? = some chunk) :
    Follows exchanges stream (n + 1) ((stage stream n).arrive n chunk) where
  going := fun d => by rw [gaveUp_arrive, hf.going d]
  responses := by rw [events_arrive]; exact hf.responses
  methods := by rw [events_arrive, methods_arrive]; exact hf.methods
  answered := by rw [events_arrive]; exact hf.answered
  early := by
    intro k e he hlt
    rw [events_arrive]
    have hn : n < stream.chunks.length := (List.getElem?_eq_some_iff.mp hchunk).1
    cases hd : chunk.direction with
    | clientToServer =>
      refine hf.early k e he ?_
      rwa [Stream.bytesBefore_succ hchunk, Chunk.part_of_ne (by simp [hd]), List.append_nil] at hlt
    | serverToClient =>
      -- The order of the capture says that the request is there up to its end.
      have hend := hc.ordered k e he (n + 1) hlt
      rw [Stream.bytesBefore_succ hchunk, Chunk.part_of_ne (by simp [hd]), List.append_nil] at hend
      exact taken_of_settled h hc (Nat.le_of_lt hn) (hf.going .clientToServer)
        (List.getElem?_eq_some_iff.mp he).1 hend
  quiet := by rw [log_arrive]; exact hf.quiet

/-! ### What comes next -/

/-- **What follows the messages that were seen** is the next one, if there are bytes of it. -/
theorem exists_next {μ : Type} {all seen : List (Taken μ)} {buffer later : Bytes}
    (hpre : seen <+: all) (hb : buffer ≠ [])
    (hbytes : seen.flatMap Taken.wire ++ (buffer ++ later) = all.flatMap Taken.wire) :
    ∃ first rest, all = seen ++ first :: rest ∧
      buffer ++ later = first.wire ++ rest.flatMap Taken.wire := by
  obtain ⟨rest, rfl⟩ := hpre
  rw [List.flatMap_append, List.append_cancel_left_eq] at hbytes
  rcases rest with _ | ⟨first, rest⟩
  · exact absurd (List.append_eq_nil_iff.mp hbytes).1 hb
  · exact ⟨first, rest, rfl, hbytes⟩

/-- What was taken of a direction, what is pending and what is still to come make up all of it. -/
theorem Reached.bytes_eq (hr : Reached stream n s) {d : Direction}
    (hg : (s.pending d).gaveUp = false) :
    wireOf d s.events ++ ((s.pending d).buffer ++ stream.bytesFrom d n) = stream.bytes d := by
  rw [← List.append_assoc, hr.ledger.going d hg, Stream.bytesBefore_append_bytesFrom]

/-- The client's bytes go on with a request. -/
theorem Follows.next_request (hf : Follows exchanges stream n s) (h : IsConversation exchanges)
    (hc : Captures stream exchanges) (hr : Reached stream n s) (hb : s.client.buffer ≠ []) :
    ∃ (r : SentRequest) (rest : Bytes), r.IsSendable ∧
      s.client.buffer ++ stream.bytesFrom .clientToServer n = r.wire ++ rest := by
  have hpre := hr.inStep.taken
  have hbytes := hr.bytes_eq (hf.going .clientToServer)
  have hwire : (exchanges.flatMap fun e => e.request.wire) =
      (exchanges.map fun e => e.request.taken).flatMap Taken.wire := by
    rw [List.flatMap_map]
    rfl
  rw [h.allRequests hc] at hpre
  rw [wireOf_client, hc.client, hwire] at hbytes
  obtain ⟨first, rest, hsplit, hnext⟩ := exists_next hpre hb hbytes
  have hmem : first ∈ exchanges.map fun e => e.request.taken := by
    rw [hsplit]
    exact List.mem_append_right _ List.mem_cons_self
  obtain ⟨e, he, rfl⟩ := List.mem_map.mp hmem
  exact ⟨e.request, _, (h.sendable e he).request, hnext⟩

/-- **A response that is next**: it fits the method at the front of the queue, and the server's
bytes go on with it. -/
structure IsNext (exchanges : List Exchange) (stream : Stream) (n : Nat) (s : Dispatch)
    (done : List SentResponse) (r : SentResponse) (rest : List SentResponse) : Prop where
  split : allResponses exchanges = done ++ r :: rest
  taken : responsesIn s.events = done.map SentResponse.taken
  bytes : s.server.buffer ++ stream.bytesFrom .serverToClient n =
    r.wire ++ rest.flatMap SentResponse.wire
  sendable : r.IsSendable
  fits : r.Fits s.methods.head?
  stays : r.status ≠ 101
  last : ∀ data, r.body = .untilEnd data → rest = []
  /-- The request of a final response is among those without one. -/
  answers : 200 ≤ r.status → finalsIn s.events < (requestsIn s.events).length

/-- The method at the front of the queue is that of the first request without a final response. -/
theorem Follows.head?_methods (hf : Follows exchanges stream n s) (h : IsConversation exchanges)
    (hc : Captures stream exchanges) (hr : Reached stream n s) {e : Exchange}
    (he : exchanges[finalsIn s.events]? = some e)
    (hlt : finalsIn s.events < (requestsIn s.events).length) :
    s.methods.head? = some (Bytes.latin1 e.request.method) := by
  obtain ⟨more, hmore⟩ := hr.inStep.taken
  rw [h.allRequests hc] at hmore
  have hget : (requestsIn s.events)[finalsIn s.events]? = some e.request.taken := by
    rw [← List.getElem?_append_left hlt, hmore, List.getElem?_map, he]
    rfl
  rw [hf.methods, List.head?_drop, List.getElem?_map, hget]
  rfl

/-- **The server's bytes go on with a response.** If it is a final one, its bytes are there, so its
request has been taken. -/
theorem Follows.next_response (hf : Follows exchanges stream n s) (h : IsConversation exchanges)
    (hc : Captures stream exchanges) (hr : Reached stream n s) (hb : s.server.buffer ≠ []) :
    ∃ done r rest, IsNext exchanges stream n s done r rest := by
  have hbytes := hr.bytes_eq (hf.going .serverToClient)
  have hwire : (exchanges.flatMap Exchange.responseWire) =
      ((allResponses exchanges).map SentResponse.taken).flatMap Taken.wire := by
    rw [← flatMap_wire_allResponses, List.flatMap_map]
    rfl
  rw [wireOf_server, hc.server, hwire] at hbytes
  obtain ⟨first, more, hsplit, hnext⟩ := exists_next hf.responses hb hbytes
  obtain ⟨done, others, hall, hdone, hothers⟩ := List.map_eq_append_iff.mp hsplit
  obtain ⟨r, rest, rfl, rfl, rfl⟩ := List.map_eq_cons_iff.mp hothers
  rw [List.flatMap_map] at hnext
  rcases response_cases h.sendable hall with
    ⟨e, he, hint⟩ | ⟨before, e, after, rfl, rfl, hcount, hwires, rfl⟩
  · -- An interim response has no body, whatever the queue holds.
    obtain ⟨hs, hi⟩ := (h.sendable e he).interim r hint
    refine ⟨done, r, rest, hall, hdone.symm, hnext, hs, hi.fits hs _, hi.2.1, ?_, ?_⟩
    · intro data hdata
      rw [hi.2.2] at hdata
      cases hdata
    · intro hge
      exact absurd hi.1 (Nat.not_lt.mpr hge)
  · -- A final one belongs to the first request without one, whose method is next in the queue.
    have he := h.sendable e (List.mem_append_right _ List.mem_cons_self)
    have hfinals : finalsIn s.events = before.length := by
      rw [finalsIn_eq, ← hdone, List.countP_map]
      exact hcount
    have hget : (before ++ e :: after)[finalsIn s.events]? = some e := by
      rw [hfinals, List.getElem?_append_right (Nat.le_refl _), Nat.sub_self]
      rfl
    have hat : finalAt (before ++ e :: after) (finalsIn s.events) e =
        (wireOf .serverToClient s.events).length := by
      rw [finalAt, hfinals, List.take_left, ← List.length_append, ← hwires, wireOf_server, ← hdone,
        List.flatMap_map]
      rfl
    have hlt : finalsIn s.events < (requestsIn s.events).length := by
      refine hf.early _ e hget ?_
      have hpos := List.length_pos_iff.mpr hb
      have hgoing := congrArg List.length (hr.ledger.going .serverToClient (hf.going _))
      rw [List.length_append, pending] at hgoing
      rw [hat]
      omega
    refine ⟨done, e.final, _, hall, hdone.symm, hnext, he.final, ?_, ?_, ?_, fun _ => hlt⟩
    · rw [hf.head?_methods h hc hr hget hlt]
      exact he.answers.fits
    · have := he.answers.1
      omega
    · intro data hdata
      have hlast : after = [] := by
        refine h.ends before e after rfl ?_
        rw [SentResponse.endsWithStream, hdata]
      rw [hlast]
      rfl

/-! ### Steps -/

section Steps

variable {id : Nat} {atEnd : Bool} {done rest : List SentResponse} {r : SentResponse}

/-- What is read, or waits before the end of the stream, is not given up. -/
theorem not_bad {μ : Type} {parsed atLast : Parsed μ} {h b : Nat} {m : μ} {why : Reason}
    (hread : parsed = .complete h b m ∨ atEnd = false ∧ parsed = .incomplete)
    (hlast : atEnd = true → atLast = parsed) :
    ¬ (parsed = .invalid why ∨ atEnd = true ∧ atLast = .incomplete) := by
  rintro (hbad | ⟨hend, hbad⟩)
  · rcases hread with hread | ⟨-, hread⟩ <;> (rw [hread] at hbad; cases hbad)
  · rw [hlast hend] at hbad
    rcases hread with hread | ⟨hnot, -⟩
    · rw [hread] at hbad
      cases hbad
    · rw [hend] at hnot
      cases hnot

theorem answered_concat {events : List Event} {event : Event}
    (h : ∀ before, before <+: events → finalsIn before ≤ (requestsIn before).length)
    (hlast : finalsIn (events ++ [event]) ≤ (requestsIn (events ++ [event])).length) :
    ∀ before, before <+: events ++ [event] → finalsIn before ≤ (requestsIn before).length := by
  intro before hpre
  rcases List.prefix_concat_iff.mp hpre with rfl | hpre
  · exact hlast
  · exact h before hpre

theorem quiet_concat {log : Log} {r : Log.Record} (h : ∀ r ∈ log, r.severity ≠ .warn)
    (hr : r.severity ≠ .warn) : ∀ r' ∈ log ++ [r], r'.severity ≠ .warn := by
  intro r' hr'
  rcases List.mem_append.mp hr' with hr' | hr'
  · exact h r' hr'
  · rwa [List.mem_singleton.mp hr']

theorem Follows.request {start h b : Nat} {m : Request} (hf : Follows exchanges stream n s)
    (hg : s.client.gaveUp = false) (hb : s.client.buffer ≠ [])
    (hst : s.client.startChunk? = some start)
    (hp : parseRequest atEnd s.client.buffer = .complete h b m) :
    Follows exchanges stream n (s.takeRequest id start h b m) := by
  have ht := takes_takeRequest id hg hb hst hp
  have hrequests : requestsIn (s.events ++ [s.requestEvent start h b m]) =
      requestsIn s.events ++ [⟨_, _, m⟩] := requestsIn_append _ _
  have hresponses : responsesIn (s.events ++ [s.requestEvent start h b m]) =
      responsesIn s.events := by
    rw [responsesIn_append]
    exact List.append_nil _
  have hfinals : finalsIn (s.events ++ [s.requestEvent start h b m]) = finalsIn s.events := by
    rw [finalsIn_eq, hresponses, ← finalsIn_eq]
  have hanswered := hf.answered s.events List.prefix_rfl
  refine ⟨fun d => by rw [ht.gaveUp, hf.going d], ?_, ?_, ?_, ?_,
    quiet_concat hf.quiet (by simp)⟩
  · rw [ht.events, hresponses]
    exact hf.responses
  · -- The queue grows by the method of the request.
    rw [ht.events, hrequests, hfinals, List.map_append,
      List.drop_append_of_le_length (by rwa [List.length_map]), ← hf.methods]
    rfl
  · rw [ht.events]
    refine answered_concat hf.answered ?_
    rw [hfinals, hrequests, List.length_append]
    omega
  · intro k e he hlt
    have := hf.early k e he hlt
    rw [ht.events, hrequests, List.length_append]
    omega

/-- The next response is read as it was sent, unless it waits for more. -/
theorem IsNext.parse (hn : IsNext exchanges stream n s done r rest)
    (he : atEnd = true → n = stream.chunks.length) :
    parseResponse atEnd s.methods.head? s.server.buffer =
        .complete r.head.length r.body.wire.length r.message ∨
      atEnd = false ∧ parseResponse atEnd s.methods.head? s.server.buffer = .incomplete := by
  refine parseResponse_of_front hn.sendable hn.fits ?_ hn.bytes ?_
  · intro data hdata
    rw [hn.last data hdata]
    rfl
  · intro hend
    rw [he hend, Stream.bytesFrom_length]

theorem IsNext.response? (hn : IsNext exchanges stream n s done r rest) (start : Nat)
    (hle : r.head.length + r.body.wire.length ≤ s.server.buffer.length) :
    (s.responseEvent start r.head.length r.body.wire.length r.message).response? =
      some r.taken := by
  have hbytes := hn.bytes
  rw [SentResponse.wire, List.append_assoc] at hbytes
  have hhead : s.server.buffer.take r.head.length = r.head := by
    have := congrArg (List.take r.head.length) hbytes
    rwa [List.take_append_of_le_length (by omega), List.take_left] at this
  have hraw : (s.server.buffer.drop r.head.length).take r.body.wire.length = r.body.wire := by
    have := congrArg (List.take r.body.wire.length) (congrArg (List.drop r.head.length) hbytes)
    rwa [List.drop_append_of_le_length (by omega),
      List.take_append_of_le_length (by rw [List.length_drop]; omega), List.drop_left,
      List.take_left] at this
  rw [responseEvent, hhead, hraw]
  rfl

theorem Follows.response {start : Nat} (hf : Follows exchanges stream n s)
    (hn : IsNext exchanges stream n s done r rest)
    (hg : s.server.gaveUp = false) (hb : s.server.buffer ≠ [])
    (hst : s.server.startChunk? = some start)
    (hp : parseResponse atEnd s.methods.head? s.server.buffer =
      .complete r.head.length r.body.wire.length r.message) :
    Follows exchanges stream n
      (s.takeResponse id start r.head.length r.body.wire.length r.message) := by
  have ht := takes_takeResponse id hg hb hst hp
  have hevent := hn.response? start (length_le_of_parseResponse hp)
  generalize hev : s.responseEvent start r.head.length r.body.wire.length r.message = event at *
  have hrequests : requestsIn (s.events ++ [event]) = requestsIn s.events := by
    rw [requestsIn_append, ← hev]
    exact List.append_nil _
  have hresponses : responsesIn (s.events ++ [event]) = responsesIn s.events ++ [r.taken] := by
    rw [responsesIn_append, responsesIn, responsesIn, List.filterMap_cons, hevent]
    rfl
  have hfinals : finalsIn (s.events ++ [event]) =
      finalsIn s.events + if 200 ≤ r.status then 1 else 0 := by
    rw [finalsIn_eq, hresponses, List.countP_append, ← finalsIn_eq, List.countP_singleton]
    by_cases hge : 200 ≤ r.status <;>
      simp [endsExchange, SentResponse.taken, SentResponse.message, hge]
  have hmethods : (s.takeResponse id start r.head.length r.body.wire.length r.message).methods =
      if 200 ≤ r.status then s.methods.drop 1 else s.methods := rfl
  refine ⟨fun d => by rw [ht.gaveUp, hf.going d], ?_, ?_, ?_, ?_,
    quiet_concat hf.quiet (by simp)⟩
  · rw [ht.events, hresponses, hn.split, hn.taken, List.map_append, List.map_cons]
    exact ⟨rest.map SentResponse.taken, by simp⟩
  · -- A final response takes the first method off the queue, and an interim one leaves it.
    rw [ht.events, hrequests, hfinals, hmethods, hf.methods]
    split
    · rw [List.drop_drop]
    · rfl
  · rw [ht.events]
    refine answered_concat hf.answered ?_
    rw [hfinals, hrequests]
    split
    · exact hn.answers ‹_›
    · exact hf.answered s.events List.prefix_rfl
  · rw [ht.events, hrequests]
    exact hf.early

end Steps

/-- **Every state of a run over a capture follows the conversation.** -/
theorem Reached.follows (h : IsConversation exchanges) (hc : Captures stream exchanges)
    (hr : Reached stream n s) : Follows exchanges stream n s := by
  induction hr with
  | opening => exact follows_opening exchanges stream
  | arrive _ hchunk ih => exact ih.arrive h hc hchunk
  | step hr he hstep ih =>
    cases hstep with
    | request hg hb hst hp => exact ih.request hg hb hst hp
    | response hg hb hst hp =>
      obtain ⟨done, r, rest, hn⟩ := ih.next_response h hc hr hb
      rcases hn.parse he with hread | ⟨-, hwait⟩
      · -- What was read is the response as it was sent.
        have hsame := hp
        rw [hread] at hsame
        cases hsame
        exact ih.response hn hg hb hst hp
      · rw [hwait] at hp
        cases hp
    | switch hg hb hst hp hm =>
      obtain ⟨done, r, rest, hn⟩ := ih.next_response h hc hr hb
      rcases hn.parse he with hread | ⟨-, hwait⟩
      · rw [hread] at hp
        cases hp
        exact absurd hm hn.stays
      · rw [hwait] at hp
        cases hp
    | badRequest hg hb hp =>
      -- What is sent is read, or waits before the end: neither direction is given up.
      obtain ⟨r, rest, hs, hnext⟩ := ih.next_request h hc hr hb
      have hread := parseRequest_of_front hs hnext fun hend => by
        rw [he hend, Stream.bytesFrom_length]
      exact absurd hp (not_bad hread fun hend => by rw [hend])
    | badResponse hg hb hp =>
      obtain ⟨done, r, rest, hn⟩ := ih.next_response h hc hr hb
      exact absurd hp (not_bad (hn.parse he) fun hend => by rw [hend])

/-! ### The end of a run -/

theorem Reached.requestsIn_of_isOver (h : IsConversation exchanges)
    (hc : Captures stream exchanges) (hr : Reached stream stream.chunks.length s)
    (ho : s.IsOver .clientToServer) :
    requestsIn s.events = exchanges.map fun e => e.request.taken := by
  have hg := (hr.follows h hc).going .clientToServer
  have hb := ho.resolve_left (by simp [hg])
  have hall := hr.inStep.going hg
  rw [h.allRequests hc, hb, Stream.bytesFrom_length, List.append_nil, requestsOf_nil,
    List.append_nil] at hall
  exact hall.symm

theorem Reached.responsesIn_of_isOver (h : IsConversation exchanges)
    (hc : Captures stream exchanges) (hr : Reached stream stream.chunks.length s)
    (ho : s.IsOver .serverToClient) :
    responsesIn s.events = (allResponses exchanges).map SentResponse.taken := by
  have hf := hr.follows h hc
  have hb := ho.resolve_left (by simp [hf.going])
  have hbytes := hr.bytes_eq (hf.going .serverToClient)
  obtain ⟨rest, hrest⟩ := hf.responses
  rw [hb, Stream.bytesFrom_length, List.append_nil, List.append_nil, wireOf_server, hc.server,
    ← flatMap_wire_allResponses] at hbytes
  have hwire : (allResponses exchanges).flatMap SentResponse.wire =
      (responsesIn s.events).flatMap Taken.wire ++ rest.flatMap Taken.wire := by
    rw [← List.flatMap_append, hrest, List.flatMap_map]
    rfl
  -- What is left over of the responses has no bytes, so there is none.
  have hnil : rest.flatMap Taken.wire = [] := by
    rwa [← hbytes, List.self_eq_append_right] at hwire
  rcases rest with _ | ⟨first, rest⟩
  · rw [← hrest, List.append_nil]
  · have hmem : first ∈ (allResponses exchanges).map SentResponse.taken := by
      rw [← hrest]
      exact List.mem_append_right _ List.mem_cons_self
    obtain ⟨r, -, rfl⟩ := List.mem_map.mp hmem
    exact absurd (List.append_eq_nil_iff.mp hnil).1 r.wire_ne_nil

/-- Where no direction was given up, nothing is left over. -/
theorem Ledger.leftOver_eq_nil (hl : Ledger stream n s) (hg : ∀ d, (s.pending d).gaveUp = false) :
    s.leftOver = [] := by
  refine List.eq_nil_iff_forall_not_mem.mpr fun i hi => ?_
  obtain ⟨-, chunk, -, hgave, -⟩ := (hl.left i).mp hi
  rw [hg] at hgave
  cases hgave

/-- **Reading undoes sending, over whole conversations.** However the bytes of a conversation were
cut into chunks, and however the chunks of the two directions follow each other, as long as no byte
of a final response comes before the end of its request: the run takes the requests and the
responses as they were sent, all of them and nothing else, each direction in order and no final
response before its request; each is handed over with the chunk of its first byte; no chunk is left
over and there is no warning, so what comes out is what the handler answers. -/
theorem dispatch_conversation (h : IsConversation exchanges) (hc : Captures stream exchanges) :
    let run := dispatch stream
    let calls := Dispatch.calls stream.chunks run.events
    requestsIn run.events = exchanges.map (fun e => e.request.taken) ∧
    responsesIn run.events = (allResponses exchanges).map SentResponse.taken ∧
    (∀ before, before <+: run.events → finalsIn before ≤ (requestsIn before).length) ∧
    (∀ before event after, run.events = before ++ event :: after →
      ∃ chunk, stream.chunks[event.start]? = some chunk ∧ chunk.direction = event.direction ∧
        (stream.bytesBefore event.direction event.start).length ≤
          (wireOf event.direction before).length ∧
        (wireOf event.direction before).length <
          (stream.bytesBefore event.direction (event.start + 1)).length) ∧
    run.leftOver = [] ∧ (∀ r ∈ run.log, r.severity ≠ .warn) ∧
    calls.map (·.2) = run.events ∧
    ∀ {σ : Type} (handler : Handler σ) (state : σ),
      run.kept handler state stream =
        (handler.run state calls, (handler.answers state calls).flatten) := by
  intro run calls
  have hr := reached_dispatch stream
  have hf := hr.follows h hc
  have hleft : run.leftOver = [] := hr.ledger.leftOver_eq_nil hf.going
  refine ⟨hr.requestsIn_of_isOver h hc (isOver_dispatch stream _),
    hr.responsesIn_of_isOver h hc (isOver_dispatch stream _), hf.answered, ?_, hleft, hf.quiet,
    map_snd_calls fun event he => hr.start_lt he, ?_⟩
  · intro before event after hsplit
    obtain ⟨-, chunk, hchunk, hd, hbefore, hafter⟩ :=
      Stream.getElem?_originsBefore.mp (hr.origin_of_event hsplit)
    exact ⟨chunk, hchunk, hd, hbefore, hafter⟩
  · intro σ handler state
    rw [kept, handle_eq, hleft, List.filterMap_nil]
    simp only [List.append_nil]
    rfl

/-- A request with a body, an interim response to its head, and a response that ends with the
stream. -/
def upload : Exchange where
  request :=
    { method := Bytes.ascii "POST", target := Bytes.ascii "/", version := 1
      fields := [⟨Bytes.ascii "Content-Length", Bytes.ascii "2"⟩]
      body := .counted (Bytes.ascii "hi") }
  interim :=
    [{ version := 1, status := 100, reason := Bytes.ascii "Continue", fields := [], body := .none }]
  final :=
    { version := 1, status := 200, reason := Bytes.ascii "OK", fields := []
      body := .untilEnd (Bytes.ascii "done") }

/-- The upload as it was captured: the interim response comes before the body. -/
def uploadCapture : Stream where
  metadata := { id := 1, serverHost := "192.0.2.1", serverPort := 80 }
  chunks :=
    [⟨.clientToServer, upload.request.head, ⟨0, 0⟩⟩, ⟨.serverToClient, upload.beforeFinal, ⟨1, 0⟩⟩,
      ⟨.clientToServer, upload.request.body.wire, ⟨2, 0⟩⟩,
      ⟨.serverToClient, upload.final.wire, ⟨3, 0⟩⟩]

theorem isSendable_upload : upload.IsSendable where
  request :=
    { method_ne_nil := by decide
      method_token := by decide
      target_ne_nil := by decide
      target_visible := by decide
      version_le := by decide
      fields_le := by decide
      fields_sendable := by decide
      body_sendable := show 2 < Numeral.wordLimit by decide
      body_announced := ⟨[], _, [], rfl, by decide, by decide, by decide⟩
      body_ends := by rintro _ ⟨⟩ }
  interim := by
    intro r hr
    rw [List.mem_singleton.mp hr]
    exact ⟨⟨by decide, by decide, by decide, by decide, by decide, by decide, trivial⟩, by decide,
      by decide, rfl⟩
  final := ⟨by decide, by decide, by decide, by decide, by decide, by decide, trivial⟩
  answers := ⟨by decide, by decide, by rintro _ ⟨⟩⟩

theorem captures_upload : Captures uploadCapture [upload] where
  client := by decide
  server := by decide
  ordered := by
    rintro (_ | k) e he n hlt
    · cases he
      -- Before the last chunk there is no byte of the final response.
      rcases n with _ | _ | _ | _ | n
      iterate 4 exact absurd hlt (by decide)
      · rw [Stream.bytesBefore_of_length_le (by exact Nat.le_add_left 4 n)]
        decide
    · cases he

theorem dispatch_upload :
    IsConversation [upload] ∧ Captures uploadCapture [upload] ∧
      requestsIn (dispatch uploadCapture).events = [upload.request.taken] ∧
      responsesIn (dispatch uploadCapture).events =
        upload.interim.map SentResponse.taken ++ [upload.final.taken] := by
  have h : IsConversation [upload] := by
    refine ⟨fun e he => ?_, fun before e after hsplit _ => ?_⟩
    · rw [List.mem_singleton.mp he]
      exact isSendable_upload
    · have := congrArg List.length hsplit
      simp only [List.length_append, List.length_cons, List.length_nil] at this
      exact List.eq_nil_of_length_eq_zero (by omega)
  have hrun := dispatch_conversation h captures_upload
  exact ⟨h, captures_upload, hrun.1, hrun.2.1⟩

/-- A request whose method is `head` in small letters, with a response that has a body. -/
def smallHead : Exchange where
  request :=
    { method := Bytes.ascii "head", target := Bytes.ascii "/", version := 1, fields := []
      body := .none }
  interim := []
  final :=
    { version := 1, status := 200, reason := Bytes.ascii "OK"
      fields := [⟨Bytes.ascii "Content-Length", Bytes.ascii "2"⟩]
      body := .counted (Bytes.ascii "ok") }

/-- The capture of it. -/
def smallHeadCapture : Stream where
  metadata := { id := 1, serverHost := "192.0.2.1", serverPort := 80 }
  chunks :=
    [⟨.clientToServer, smallHead.request.wire, ⟨0, 0⟩⟩,
      ⟨.serverToClient, smallHead.final.wire, ⟨1, 0⟩⟩]

/-- **A method in small letters** is taken for `HEAD` as well: the response is one that may have a
body, were the case of the letters to count, but the run takes it without, and its chunk is left
over. -/
theorem dispatch_smallHead :
    smallHead.request.IsSendable ∧ smallHead.request.method ≠ Bytes.ascii "HEAD" ∧
      smallHead.final.IsSendable ∧ smallHead.final.status = 200 ∧
      smallHead.final.body.IsAnnouncedBy smallHead.final.fields ∧
      Captures smallHeadCapture [smallHead] ∧
      responsesIn (dispatch smallHeadCapture).events ≠ [smallHead.final.taken] ∧
      (dispatch smallHeadCapture).leftOver = [1] := by
  refine ⟨?_, by decide, ?_, rfl, ?_, ?_, by decide +kernel, by decide +kernel⟩
  · exact ⟨by decide, by decide, by decide, by decide, by decide, by decide, by decide, trivial,
      by rintro _ ⟨⟩, by rintro _ ⟨⟩⟩
  · exact ⟨by decide, by decide, by decide, by decide, by decide, by decide,
      show 2 < Numeral.wordLimit by decide⟩
  · exact ⟨[], _, [], rfl, by decide, by decide, by decide⟩
  · refine ⟨by decide, by decide, ?_⟩
    rintro (_ | k) e he n hlt
    · cases he
      rcases n with _ | _ | n
      iterate 2 exact absurd hlt (by decide)
      · rw [Stream.bytesBefore_of_length_le (by exact Nat.le_add_left 2 n)]
        decide
    · cases he

end HttpReplay.Http
