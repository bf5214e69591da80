import HttpReplay.Proofs.Dispatch.Cuts
import HttpReplay.Proofs.Dispatch.Requests

/-!
# Giving up is final

A direction is given up where its bytes begin no message, and both are given up where the server
switches the protocol. What is pending is dropped then and the direction is marked, and the mark is
asked for wherever a chunk arrives or a message may be taken. This file shows that no place was
forgotten. The invariant (`HttpReplay.Http.StaysGivenUp`) compares a state with any later one and
survives the three things that can happen: a chunk arrives, a message is taken, a direction is given
up.

* `HttpReplay.Http.Later` are the states that follow on a state of a run;
* `HttpReplay.Http.Later.staysGivenUp` says that a direction stays given up in them, and
  `HttpReplay.Http.Reached.last_of_switches` that a switch is the last message of a run;
* `HttpReplay.Http.final_of_gaveUp` puts it together.
-/

namespace HttpReplay.Http

open Dispatch Event

variable {stream : Stream} {d : Direction} {n m : Nat} {s s' t : Dispatch}

/-! ### Later states -/

/-- **The states that follow on a state** in which so many chunks have been taken: further chunks
arrive in their order, and between them come any steps, those at the end of the stream only when all
chunks have been taken. -/
inductive Later (stream : Stream) (n : Nat) (s : Dispatch) : Nat → Dispatch → Prop
  /-- The state itself. -/
  | refl : Later stream n s n s
  /-- The next chunk arrives. -/
  | arrive {m : Nat} {chunk : Chunk} {s' : Dispatch} : Later stream n s m s' →
      stream.chunks[m]? = some chunk → Later stream n s (m + 1) (s'.arrive m chunk)
  /-- A step is made. -/
  | step {m : Nat} {atEnd : Bool} {s' s'' : Dispatch} : Later stream n s m s' →
      (atEnd = true → m = stream.chunks.length) → s'.Step stream.metadata.id atEnd s'' →
      Later stream n s m s''

/-- What is read after a state follows on it. -/
theorem Later.drain (h : Later stream n s m s') {atEnd : Bool}
    (he : atEnd = true → m = stream.chunks.length) (d : Direction) :
    Later stream n s m (s'.drain stream.metadata.id d atEnd) :=
  holds_of_steps (fun h hstep => .step h he hstep) (drain_steps _ _ _ _) h

/-- Later stages follow on earlier ones. -/
theorem later_stage (hnm : n ≤ m) (hm : m ≤ stream.chunks.length) :
    Later stream n (stage stream n) m (stage stream m) := by
  induction m, hnm using Nat.le_induction with
  | base => exact .refl
  | succ m _ ih =>
    have hc : stream.chunks[m]? = some stream.chunks[m] := List.getElem?_eq_getElem hm
    rw [stage_succ hc, feed_eq]
    exact (Later.arrive (ih (Nat.le_of_succ_le hm)) hc).drain (by simp) _

/-- The last state of a run follows on every stage. -/
theorem later_dispatch (hn : n ≤ stream.chunks.length) :
    Later stream n (stage stream n) stream.chunks.length (dispatch stream) := by
  rw [dispatch_eq]
  exact ((later_stage hn (Nat.le_refl _)).drain (fun _ => rfl) _).drain (fun _ => rfl) _

/-! ### A direction that was given up -/

/-- **A direction stays given up** from one state of a run to a later one: nothing is pending in it,
none of its messages has been taken since, and each of its chunks that came since is left over. -/
structure StaysGivenUp (stream : Stream) (d : Direction) (n : Nat) (s : Dispatch) (m : Nat)
    (s' : Dispatch) : Prop where
  gaveUp : (s'.pending d).gaveUp = true
  buffer : (s'.pending d).buffer = []
  events : s'.events.filter (·.direction = d) = s.events.filter (·.direction = d)
  leftOver : ∀ i chunk, n ≤ i → i < m → stream.chunks[i]? = some chunk → chunk.direction = d →
    i ∈ s'.leftOver

theorem Reached.staysGivenUp (h : Reached stream n s) (hg : (s.pending d).gaveUp = true) :
    StaysGivenUp stream d n s n s where
  gaveUp := hg
  buffer := by
    rw [h.ledger.stopped d hg]
    rfl
  events := rfl
  leftOver := fun i _ hle hlt => absurd hlt (Nat.not_lt.mpr hle)

theorem mem_leftOver_arrive {index i : Nat} {chunk : Chunk} :
    i ∈ (s.arrive index chunk).leftOver ↔
      i ∈ s.leftOver ∨ i = index ∧ (s.pending chunk.direction).gaveUp = true := by
  rw [Dispatch.arrive]
  split
  · rename_i hg
    simp [hg]
  · rename_i hg
    simp [hg]

/-- A chunk that arrives in a direction that was given up is left over. -/
theorem StaysGivenUp.arrive {chunk : Chunk} (h : StaysGivenUp stream d n s m s')
    (hc : stream.chunks[m]? = some chunk) :
    StaysGivenUp stream d n s (m + 1) (s'.arrive m chunk) where
  gaveUp := by
    rw [gaveUp_arrive]
    exact h.gaveUp
  buffer := by
    rw [buffer_arrive_of_gaveUp h.gaveUp]
    exact h.buffer
  events := by
    rw [events_arrive]
    exact h.events
  leftOver := by
    intro i chunk' hle hlt hc' hd
    rw [mem_leftOver_arrive]
    rcases Nat.lt_succ_iff_lt_or_eq.mp hlt with hlt | rfl
    · exact Or.inl (h.leftOver i chunk' hle hlt hc' hd)
    · obtain rfl : chunk = chunk' := Option.some.inj (hc.symm.trans hc')
      exact Or.inr ⟨rfl, hd ▸ h.gaveUp⟩

/-- A message that is taken is one of the other direction. -/
theorem StaysGivenUp.takes {event : Event} (h : StaysGivenUp stream d n s m s')
    (ht : s'.Takes event t) : StaysGivenUp stream d n s m t := by
  have hd : event.direction ≠ d := by
    rintro rfl
    exact absurd h.gaveUp (by simp [ht.going])
  refine ⟨?_, ?_, ?_, ht.leftOver ▸ h.leftOver⟩
  · rw [ht.gaveUp]
    exact h.gaveUp
  · rw [ht.pending, if_neg hd.symm]
    exact h.buffer
  · rw [ht.events, List.filter_append, h.events]
    simp [hd]

theorem StaysGivenUp.giveUp (h : StaysGivenUp stream d n s m s') (id : Nat) (e : Direction)
    (why : Reason) : StaysGivenUp stream d n s m (s'.giveUp id e why) where
  gaveUp := (gaveUp_giveUp _ _ _ _ _).mpr (Or.inr h.gaveUp)
  buffer := by
    rw [pending_giveUp]
    split
    · rfl
    · exact h.buffer
  events := by
    rw [events_giveUp]
    exact h.events
  leftOver := fun i chunk hle hlt hc hd =>
    mem_leftOver_giveUp.mpr (Or.inl (h.leftOver i chunk hle hlt hc hd))

/-- **In all later states** a direction stays given up. -/
theorem Later.staysGivenUp (hl : Later stream n s m s') (h : Reached stream n s)
    (hg : (s.pending d).gaveUp = true) : StaysGivenUp stream d n s m s' := by
  induction hl with
  | refl => exact h.staysGivenUp hg
  | arrive _ hc ih => exact ih.arrive hc
  | step _ _ hstep ih =>
    exact hstep.keeps (fun h ht => h.takes ht) (fun h d why => h.giveUp _ d why) ih

/-! ### Switches -/

/-- What follows the last message that was taken before. -/
theorem Dispatch.Takes.last_cases {event last : Event} {before after : List Event}
    (ht : s.Takes last s') (he : s'.events = before ++ event :: after) :
    after = [] ∧ event = last ∨ ∃ after', s.events = before ++ event :: after' := by
  rw [ht.events] at he
  rcases List.eq_nil_or_concat after with rfl | ⟨after, last', rfl⟩
  · exact Or.inl ⟨rfl, (List.cons.inj (List.append_inj' he rfl).2).1.symm⟩
  · rw [List.concat_eq_append, ← List.cons_append, ← List.append_assoc] at he
    exact Or.inr ⟨after, (List.append_inj' he rfl).1⟩

/-- **A switch is the last message**, and both directions are given up with it. -/
theorem Reached.last_of_switches (h : Reached stream n s) {before after : List Event}
    {event : Event} (he : s.events = before ++ event :: after) (hs : event.switches = true) :
    after = [] ∧ ∀ d, (s.pending d).gaveUp = true := by
  induction h generalizing after with
  | opening => cases before <;> cases he
  | arrive _ _ ih =>
    rw [events_arrive] at he
    obtain ⟨hafter, hg⟩ := ih he
    exact ⟨hafter, fun d => (gaveUp_arrive _ _ _ d).trans (hg d)⟩
  | step _ _ hstep ih =>
    -- Behind a switch no message is taken, as both directions have been given up.
    cases hstep with
    | request hng hb hst hp =>
      rcases (takes_takeRequest _ hng hb hst hp).last_cases he with ⟨-, rfl⟩ | ⟨after', he⟩
      · cases hs
      · exact absurd ((ih he).2 .clientToServer) (by simp [pending, hng])
    | response hng hb hst hp hm =>
      rcases (takes_takeResponse _ hng hb hst hp).last_cases he with ⟨-, rfl⟩ | ⟨after', he⟩
      · exact absurd (of_decide_eq_true hs) hm
      · exact absurd ((ih he).2 .serverToClient) (by simp [pending, hng])
    | switch hng hb hst hp hm =>
      rw [events_giveUp, events_giveUp] at he
      rcases (takes_takeResponse _ hng hb hst hp).last_cases he with ⟨rfl, -⟩ | ⟨after', he⟩
      · refine ⟨rfl, fun d => ?_⟩
        rw [gaveUp_giveUp, gaveUp_giveUp]
        cases d
        · exact Or.inl rfl
        · exact Or.inr (Or.inl rfl)
      · exact absurd ((ih he).2 .serverToClient) (by simp [pending, hng])
    | badRequest =>
      rw [events_giveUp] at he
      exact ⟨(ih he).1, fun d => (gaveUp_giveUp _ _ _ _ _).mpr (Or.inr ((ih he).2 d))⟩
    | badResponse =>
      rw [events_giveUp] at he
      exact ⟨(ih he).1, fun d => (gaveUp_giveUp _ _ _ _ _).mpr (Or.inr ((ih he).2 d))⟩

/-! ### Bytes that begin no message -/

/-- What is pending in a direction begins no message. -/
def Dispatch.IsForeign (s : Dispatch) (atEnd : Bool) : Direction → Prop
  | .clientToServer => ∃ why, parseRequest atEnd s.client.buffer = .invalid why
  | .serverToClient =>
    ∃ why, parseResponse atEnd s.methods.head? s.server.buffer = .invalid why

/-- **Bytes that begin no message** make their direction give up at once. -/
theorem gaveUp_of_isForeign {atEnd : Bool} (hc : s.IsCovered)
    (hg : (s.pending d).gaveUp = false) (hf : s.IsForeign atEnd d) (id : Nat) :
    ((s.drain id d atEnd).pending d).gaveUp = true ∧
      (s.drain id d atEnd).events = s.events := by
  have hne : (s.pending d).buffer ≠ [] := by
    intro hb
    cases d with
    | clientToServer =>
      obtain ⟨why, hp⟩ := hf
      rw [show s.client.buffer = [] from hb, parseRequest_nil] at hp
      cases hp
    | serverToClient =>
      obtain ⟨why, hp⟩ := hf
      rw [show s.server.buffer = [] from hb, parseResponse_nil] at hp
      cases hp
  obtain ⟨start, hstart⟩ := hc.exists_startChunk? ⟨hg, hne⟩
  have hnext : ∃ why, s.next id d atEnd start = (s.giveUp id d why, false) := by
    cases d with
    | clientToServer =>
      obtain ⟨why, hp⟩ := hf
      exact ⟨why, by rw [next, nextRequest, hp]⟩
    | serverToClient =>
      obtain ⟨why, hp⟩ := hf
      exact ⟨why, by rw [next, nextResponse, hp]⟩
  obtain ⟨why, hnext⟩ := hnext
  rw [drain_of_isReadable id atEnd ⟨hg, hne⟩ hstart, hnext, if_neg Bool.false_ne_true,
    events_giveUp]
  exact ⟨(gaveUp_giveUp _ _ _ _ _).mpr (Or.inl rfl), rfl⟩

/-- **Giving up is final.** Where bytes begin no message, their direction is given up before
another message of it is taken, and a response that switches the protocol gives both directions up.
From a state of a run in which a direction has been given up, in all states that follow, the last
one of the run among them, it stays so: nothing is pending, no message of the direction is taken,
whatever is fed or read at the end of the stream, and each later chunk of the direction is left
over. So it is among what comes out of the run, whatever the handler. And a switch is the last
message of a run, whatever stands behind it. -/
theorem final_of_gaveUp (stream : Stream) :
    (∀ n s atEnd d, Reached stream n s → (s.pending d).gaveUp = false → s.IsForeign atEnd d →
      ((s.drain stream.metadata.id d atEnd).pending d).gaveUp = true ∧
        (s.drain stream.metadata.id d atEnd).events = s.events) ∧
    (∀ n s m s' d, Reached stream n s → (s.pending d).gaveUp = true → Later stream n s m s' →
      StaysGivenUp stream d n s m s') ∧
    Reached stream stream.chunks.length (dispatch stream) ∧
    (∀ n ≤ stream.chunks.length, Reached stream n (stage stream n) ∧
      Later stream n (stage stream n) stream.chunks.length (dispatch stream)) ∧
    (∀ (σ : Type) (handler : Handler σ) (state : σ) i j chunk, i ≤ j →
      stream.chunks[j]? = some chunk →
      ((stage stream i).pending chunk.direction).gaveUp = true →
      j ∈ (dispatch stream).leftOver ∧
        chunk ∈ ((dispatch stream).kept handler state stream).2) ∧
    ∀ n s before event after, Reached stream n s → s.events = before ++ event :: after →
      event.switches = true → after = [] ∧ ∀ d, (s.pending d).gaveUp = true := by
  refine ⟨?_, ?_, reached_dispatch stream,
    fun n hn => ⟨reached_stage hn, later_dispatch hn⟩, ?_, ?_⟩
  · intro n s atEnd d h hg hf
    exact gaveUp_of_isForeign h.isCovered hg hf _
  · intro n s m s' d h hg hl
    exact hl.staysGivenUp h hg
  · intro σ handler state i j chunk hij hc hg
    have hj : j < stream.chunks.length := (List.getElem?_eq_some_iff.mp hc).1
    have hi : i ≤ stream.chunks.length := Nat.le_trans hij (Nat.le_of_lt hj)
    have hstays := (later_dispatch hi).staysGivenUp (reached_stage hi) hg
    have hleft := hstays.leftOver j chunk hij hj hc rfl
    refine ⟨hleft, ?_⟩
    rw [kept]
    exact List.mem_append_right _ (List.mem_filterMap.mpr ⟨j, hleft, hc⟩)
  · intro n s before event after h he hs
    exact h.last_of_switches he hs

end HttpReplay.Http
