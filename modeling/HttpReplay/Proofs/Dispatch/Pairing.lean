import HttpReplay.Proofs.Dispatch.Conversation
import Mathlib.Data.Finset.Lattice.Fold
import Mathlib.Order.Lattice.Nat

/-!
# Which request a response belongs to

The body of a response depends on the method of its request. A run keeps the methods of the requests
whose final response has not come in a queue: a request puts its method in at the back, a final
response takes the front one out. That pairs them rightly as long as no response comes before its
request. One that does, such as an early answer to an upload that goes on, finds the queue empty and
takes nothing out; when its request is there at last, its method stays in the queue, and from then
on each final response is read with the method of an earlier request.

How far the pairing has slipped can be told from the messages alone: it is the lead that the final
responses had over the requests at most (`HttpReplay.Http.Event.lead`).

* `HttpReplay.Http.Reached.methods_eq` gives the queue of every state;
* `HttpReplay.Http.Reached.isFramed` gives the method that each response was read with;
* `HttpReplay.Http.methods_of_run` puts it together and says when the queue is as it should be,
  and `HttpReplay.Http.methods_earlyAnswer` is a run in which it is not.
-/

namespace HttpReplay.Http

open Dispatch Event

/-! ### Leads -/

namespace Event

/-- The methods of the requests among some events. -/
def methodsIn (events : List Event) : List String :=
  (requestsIn events).map (·.message.method)

/-- How many more final responses than requests there are among some events. -/
def ahead (events : List Event) : Nat := finalsIn events - (requestsIn events).length

/-- **The lead of the responses**: how far the final responses were ahead of the requests at
most. -/
def lead (events : List Event) : Nat :=
  (Finset.range (events.length + 1)).sup fun n => ahead (events.take n)

variable {events : List Event} {event : Event}

@[simp] theorem length_methodsIn (events : List Event) :
    (methodsIn events).length = (requestsIn events).length :=
  List.length_map _

theorem methodsIn_append (before after : List Event) :
    methodsIn (before ++ after) = methodsIn before ++ methodsIn after := by
  rw [methodsIn, requestsIn_append, List.map_append, methodsIn, methodsIn]

theorem lead_concat (events : List Event) (event : Event) :
    lead (events ++ [event]) = max (ahead (events ++ [event])) (lead events) := by
  have hsame : ∀ n ∈ Finset.range (events.length + 1),
      ahead ((events ++ [event]).take n) = ahead (events.take n) := by
    intro n hn
    rw [List.take_append_of_le_length (Nat.lt_succ_iff.mp (Finset.mem_range.mp hn))]
  have hall : (events ++ [event]).take (events.length + 1) = events ++ [event] :=
    List.take_of_length_le (by simp)
  rw [lead, List.length_append, List.length_singleton, Finset.range_add_one, Finset.sup_insert,
    Finset.sup_congr rfl hsame, hall, lead]

theorem ahead_le_lead (events : List Event) : ahead events ≤ lead events := by
  have hle : ahead (events.take events.length) ≤ lead events :=
    Finset.le_sup (f := fun n => ahead (events.take n)) (Finset.self_mem_range_succ events.length)
  rwa [List.take_length] at hle

/-- The requests catch up with a lead at most. -/
theorem finalsIn_le (events : List Event) :
    finalsIn events ≤ (requestsIn events).length + lead events := by
  have := ahead_le_lead events
  rw [ahead] at this
  omega

theorem lead_le_finalsIn (events : List Event) : lead events ≤ finalsIn events := by
  refine Finset.sup_le fun n _ => ?_
  calc ahead (events.take n) ≤ finalsIn (events.take n) := Nat.sub_le _ _
    _ ≤ finalsIn (events.take n) + finalsIn (events.drop n) := Nat.le_add_right _ _
    _ = finalsIn events := by rw [← finalsIn_append, List.take_append_drop]

/-! ### What a message does to the queue -/

/-- **The queue that some events leave**: the methods of the requests without those of as many as
there were final responses, not counting the lead. -/
def queueOf (events : List Event) : List String :=
  (methodsIn events).drop (finalsIn events - lead events)

variable {start : Nat} {head raw : Bytes}

theorem finalsIn_concat (events : List Event) (event : Event) :
    finalsIn (events ++ [event]) = finalsIn events + if event.isFinal then 1 else 0 := by
  rw [finalsIn_append, finalsIn, finalsIn, List.countP_singleton]

/-- Behind a message that is no final response the lead is what it was. -/
theorem lead_concat_of_not_isFinal (h : event.isFinal = false) :
    lead (events ++ [event]) = lead events := by
  have hle : ahead (events ++ [event]) ≤ ahead events := by
    rw [ahead, ahead, finalsIn_concat, h, requestsIn_append, List.length_append]
    simp only [Bool.false_eq_true, if_false]
    omega
  rw [lead_concat]
  exact max_eq_right (hle.trans (ahead_le_lead events))

theorem queueOf_concat_request (events : List Event) (start : Nat) (head raw : Bytes)
    (m : Request) :
    queueOf (events ++ [.request start head raw m]) = queueOf events ++ [m.method] := by
  have hfinals : finalsIn (events ++ [.request start head raw m]) = finalsIn events :=
    finalsIn_concat _ _
  have hle := finalsIn_le events
  rw [queueOf, lead_concat_of_not_isFinal rfl, hfinals, methodsIn_append]
  exact List.drop_append_of_le_length (by rw [length_methodsIn]; omega)

/-- A final response takes the front of the queue, if there is one. -/
theorem queueOf_concat_response (events : List Event) (start : Nat) (head raw : Bytes)
    (m : Response) :
    queueOf (events ++ [.response start head raw m]) =
      if 200 ≤ m.status then (queueOf events).drop 1 else queueOf events := by
  have hmethods : methodsIn (events ++ [.response start head raw m]) = methodsIn events := by
    rw [methodsIn_append]
    exact List.append_nil _
  have hrequests : requestsIn (events ++ [.response start head raw m]) = requestsIn events := by
    rw [requestsIn_append]
    exact List.append_nil _
  have hle := finalsIn_le events
  have hlead := lead_le_finalsIn events
  have hlength := length_methodsIn events
  rw [queueOf, hmethods, finalsIn_concat]
  by_cases hge : 200 ≤ m.status
  · have hfinal : isFinal (.response start head raw m) = true := decide_eq_true hge
    rw [lead_concat, ahead, finalsIn_concat, hrequests, if_pos hfinal, if_pos hge, queueOf,
      List.drop_drop]
    rcases Nat.lt_or_ge (finalsIn events) ((requestsIn events).length + lead events) with hlt | hge
    · -- A request waits, and the lead stays.
      rw [max_eq_right (by omega), Nat.sub_add_comm hlead]
    · -- No request waits, and the lead grows.
      rw [List.drop_eq_nil_of_le (by omega), List.drop_eq_nil_of_le (by omega)]
  · have hnot : isFinal (.response start head raw m) = false := decide_eq_false hge
    rw [lead_concat_of_not_isFinal hnot, hnot, if_neg hge]
    rfl

end Event

/-! ### The queue of a state -/

variable {stream : Stream} {n : Nat} {s s' : Dispatch}

theorem Dispatch.Step.methods_eq {id : Nat} {atEnd : Bool} (hs : s.Step id atEnd s')
    (h : s.methods = queueOf s.events) : s'.methods = queueOf s'.events := by
  have hresponse : ∀ (m : Response) start head raw,
      (if 200 ≤ m.status then s.methods.drop 1 else s.methods) =
        queueOf (s.events ++ [.response start head raw m]) := by
    intro m start head raw
    rw [queueOf_concat_response, h]
  cases hs with
  | request hg hb hst hp =>
    rw [(takes_takeRequest id hg hb hst hp).events]
    exact (congrArg (· ++ [_]) h).trans (queueOf_concat_request _ _ _ _ _).symm
  | response hg hb hst hp hm =>
    rw [(takes_takeResponse id hg hb hst hp).events]
    exact hresponse _ _ _ _
  | switch hg hb hst hp hm =>
    rw [methods_giveUp, methods_giveUp, events_giveUp, events_giveUp,
      (takes_takeResponse id hg hb hst hp).events]
    exact hresponse _ _ _ _
  | badRequest => rwa [methods_giveUp, events_giveUp]
  | badResponse => rwa [methods_giveUp, events_giveUp]

/-- **The queue of every state** is that of its messages. -/
theorem Reached.methods_eq (h : Reached stream n s) : s.methods = queueOf s.events := by
  induction h with
  | opening => rfl
  | arrive _ _ ih => rwa [methods_arrive, events_arrive]
  | step _ _ hstep ih => exact hstep.methods_eq ih

/-- The queue is short of no request just where there was no lead, unless it is empty. -/
theorem queueOf_eq_drop_iff (events : List Event) :
    queueOf events = (methodsIn events).drop (finalsIn events) ↔
      lead events = 0 ∨ queueOf events = [] := by
  have hlead := lead_le_finalsIn events
  constructor
  · intro h
    have hlength := congrArg List.length h
    rw [queueOf, List.length_drop, List.length_drop] at hlength
    rw [queueOf, List.drop_eq_nil_iff]
    omega
  · rintro (h | h)
    · rw [queueOf, h, Nat.sub_zero]
    · rw [h]
      rw [queueOf, List.drop_eq_nil_iff] at h
      exact (List.drop_eq_nil_of_le (by omega)).symm

/-! ### The method that a response is read with -/

/-- **A response is framed with a method**: at some time it is what the server's bytes behind the
messages before it are read as, if that is the method of its request. -/
def IsFramed (stream : Stream) (before : List Event) (t : Taken Response)
    (method : Option String) : Prop :=
  ∃ n atEnd, n ≤ stream.chunks.length ∧ (atEnd = true → n = stream.chunks.length) ∧
    parseResponse atEnd method ((stream.bytesBefore .serverToClient n).drop
      (wireOf .serverToClient before).length) = .complete t.head.length t.raw.length t.message

/-- A step takes no message, or one more; a response is read with the front of the queue. -/
theorem Dispatch.Step.last_cases {id : Nat} {atEnd : Bool} (hs : s.Step id atEnd s') :
    s'.events = s.events ∨ ∃ event, s'.events = s.events ++ [event] ∧
      ∀ t, event.response? = some t → s.server.gaveUp = false ∧
        parseResponse atEnd s.methods.head? s.server.buffer =
          .complete t.head.length t.raw.length t.message := by
  have hread : ∀ {start k b : Nat} {m : Response}, s.server.gaveUp = false →
      parseResponse atEnd s.methods.head? s.server.buffer = .complete k b m →
      ∀ t, (s.responseEvent start k b m).response? = some t → s.server.gaveUp = false ∧
        parseResponse atEnd s.methods.head? s.server.buffer =
          .complete t.head.length t.raw.length t.message := by
    intro start k b m hg hp t ht
    have hle := length_le_of_parseResponse hp
    cases ht
    refine ⟨hg, ?_⟩
    rw [List.length_take, List.length_take, List.length_drop, Nat.min_eq_left (by omega),
      Nat.min_eq_left (by omega), hp]
  cases hs with
  | request hg hb hst hp =>
    refine Or.inr ⟨_, (takes_takeRequest id hg hb hst hp).events, ?_⟩
    intro t ht
    cases ht
  | response hg hb hst hp hm =>
    exact Or.inr ⟨_, (takes_takeResponse id hg hb hst hp).events, hread hg hp⟩
  | switch hg hb hst hp hm =>
    refine Or.inr ⟨_, Eq.trans ?_ (takes_takeResponse id hg hb hst hp).events, hread hg hp⟩
    rw [events_giveUp, events_giveUp]
  | badRequest => exact Or.inl (events_giveUp _ _ _ _)
  | badResponse => exact Or.inl (events_giveUp _ _ _ _)

/-- A run takes no more chunks than there are. -/
theorem Reached.le_length (h : Reached stream n s) : n ≤ stream.chunks.length := by
  induction h with
  | opening => exact Nat.zero_le _
  | arrive _ hc _ => exact (List.getElem?_eq_some_iff.mp hc).1
  | step _ _ _ ih => exact ih

/-- **The method of a response** is that at the front of the queue which the messages before it
leave. -/
theorem Reached.isFramed (h : Reached stream n s) {before after : List Event} {event : Event}
    {t : Taken Response} (he : s.events = before ++ event :: after)
    (ht : event.response? = some t) : IsFramed stream before t (queueOf before).head? := by
  induction h generalizing after with
  | opening => cases before <;> cases he
  | arrive _ _ ih =>
    rw [events_arrive] at he
    exact ih he
  | step hr hend hstep ih =>
    rename_i n atEnd s s'
    rcases hstep.last_cases with hsame | ⟨last, hlast, hread⟩
    · exact ih (hsame ▸ he)
    · rw [hlast] at he
      rcases List.eq_nil_or_concat after with rfl | ⟨after, last', rfl⟩
      · obtain ⟨hbefore, hevent⟩ := List.append_inj' he rfl
        cases hevent
        subst hbefore
        obtain ⟨hg, hp⟩ := hread t ht
        have hgoing := hr.ledger.going .serverToClient hg
        refine ⟨n, atEnd, hr.le_length, hend, ?_⟩
        rw [← hgoing, List.drop_left, ← hr.methods_eq]
        exact hp
      · rw [List.concat_eq_append, ← List.cons_append, ← List.append_assoc] at he
        exact ih (List.append_inj' he rfl).1

/-- **How responses are paired with requests.** In every state of a run the queue holds the methods
of the requests, without those of as many as there were final responses, not counting the lead that
the responses had at most; this is the queue of the requests whose final response is still to come
just where there was no lead, or nothing is queued. A response is read with the method of the
request with the number of the final responses before it, less that lead. -/
theorem methods_of_run (stream : Stream) :
    (∀ n s, Reached stream n s →
      s.methods = (methodsIn s.events).drop (finalsIn s.events - lead s.events) ∧
      (s.methods = (methodsIn s.events).drop (finalsIn s.events) ↔
        lead s.events = 0 ∨ s.methods = [])) ∧
    ∀ before event after t, (dispatch stream).events = before ++ event :: after →
      event.response? = some t →
      IsFramed stream before t (methodsIn before)[finalsIn before - lead before]? := by
  constructor
  · intro n s h
    rw [h.methods_eq]
    exact ⟨rfl, queueOf_eq_drop_iff s.events⟩
  · intro before event after t he ht
    rw [← List.head?_drop]
    exact (reached_dispatch stream).isFramed he ht

/-- An upload that is refused before all of it was sent, and two requests behind it. -/
def earlyAnswer : Stream where
  metadata := { id := 1, serverHost := "192.0.2.1", serverPort := 80 }
  chunks := [
    ⟨.clientToServer, Bytes.ascii "POST /up HTTP/1.1\r\nContent-Length: 4\r\n\r\nab", ⟨0, 0⟩⟩,
    ⟨.serverToClient, Bytes.ascii "HTTP/1.1 413 Too Large\r\nContent-Length: 0\r\n\r\n", ⟨1, 0⟩⟩,
    ⟨.clientToServer, Bytes.ascii "cdHEAD /x HTTP/1.1\r\n\r\nGET /y HTTP/1.1\r\n\r\n", ⟨2, 0⟩⟩,
    ⟨.serverToClient, Bytes.ascii ("HTTP/1.1 200 OK\r\nContent-Length: 5\r\n\r\n" ++
      "HTTP/1.1 200 OK\r\nContent-Length: 2\r\n\r\nhi"), ⟨3, 0⟩⟩]

/-- **An early answer spoils the pairing**: the second final response answers the second request,
which is a `HEAD`, but it is read with the method of the first one. So the bytes of the third
response are taken for its body, and what is left of them is no HTTP. -/
theorem methods_earlyAnswer :
    let run := dispatch earlyAnswer
    methodsIn run.events = ["POST", "HEAD", "GET"] ∧ finalsIn run.events = 2 ∧
      run.methods = ["HEAD", "GET"] ∧
      run.methods ≠ (methodsIn run.events).drop (finalsIn run.events) ∧
      (responsesIn run.events).map (·.raw) = [[], Bytes.ascii "HTTP/"] ∧
      run.leftOver = [3] := by
  decide +kernel

end HttpReplay.Http
