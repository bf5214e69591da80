import HttpReplay.Http.Dispatch
import HttpReplay.Proofs.Dispatch.Origins
import HttpReplay.Proofs.Http.Messages
import Mathlib.Logic.Relation

/-!
# Runs as sequences of steps

A run takes the chunks one after another and, after each of them, as many messages of its direction
as there are. This file cuts it into steps, so that a property of every run is a property that the
opening state has, that survives the arrival of a chunk, and that survives a step.

* `HttpReplay.Http.Dispatch.Step` is a step: a request or a response is taken, the protocol is
  switched, or a direction is given up. `HttpReplay.Http.Dispatch.drain_steps` says that a drain
  is a sequence of them and `HttpReplay.Http.Dispatch.drain_settled` where it ends;
* `HttpReplay.Http.Dispatch.Reached` are the states of a run, with the number of chunks taken
  so far; `HttpReplay.Http.reached_stage` and `HttpReplay.Http.reached_dispatch` say that the
  states between chunks and the last state are among them.
-/

namespace HttpReplay.Http

/-! ### Chunks left over -/

theorem mem_insertAscending {m n : Nat} {list : List Nat} :
    m ∈ insertAscending n list ↔ m = n ∨ m ∈ list := by
  induction list with
  | nil => simp [insertAscending]
  | cons k list ih =>
    rw [insertAscending]
    split
    · simp
    · split
      · rename_i hk
        simp [hk]
      · simp only [List.mem_cons, ih]
        exact or_left_comm

theorem pairwise_insertAscending {list : List Nat} (h : list.Pairwise (· < ·)) (n : Nat) :
    (insertAscending n list).Pairwise (· < ·) := by
  induction list with
  | nil => exact List.pairwise_singleton _ _
  | cons k list ih =>
    obtain ⟨hk, hl⟩ := List.pairwise_cons.mp h
    rw [insertAscending]
    split
    · rename_i hlt
      refine List.pairwise_cons.mpr ⟨?_, h⟩
      rintro m (_ | ⟨_, hm⟩)
      · exact hlt
      · exact Nat.lt_trans hlt (hk m hm)
    · split
      · exact h
      · rename_i hge hne
        refine List.pairwise_cons.mpr ⟨?_, ih hl⟩
        intro m hm
        rcases mem_insertAscending.mp hm with rfl | hm
        · omega
        · exact hk m hm

namespace Dispatch

variable {id : Nat} {atEnd : Bool} {d : Direction} {s s' : Dispatch}

@[simp] theorem pending_leave (s : Dispatch) (chunks : List Nat) (d : Direction) :
    (s.leave chunks).pending d = s.pending d := by
  cases d <;> rfl

@[simp] theorem events_leave (s : Dispatch) (chunks : List Nat) :
    (s.leave chunks).events = s.events := rfl

@[simp] theorem methods_leave (s : Dispatch) (chunks : List Nat) :
    (s.leave chunks).methods = s.methods := rfl

@[simp] theorem mem_leave {chunks : List Nat} {i : Nat} :
    i ∈ (s.leave chunks).leftOver ↔ i ∈ s.leftOver ∨ i ∈ chunks := by
  simp only [leave]
  induction chunks generalizing s with
  | nil => simp
  | cons c chunks ih =>
    have := ih (s := s.leave [c])
    simp only [leave, List.foldl_cons, List.foldl_nil] at this ⊢
    rw [this, mem_insertAscending, List.mem_cons]
    tauto

theorem pairwise_leave (h : s.leftOver.Pairwise (· < ·)) (chunks : List Nat) :
    (s.leave chunks).leftOver.Pairwise (· < ·) := by
  simp only [leave]
  induction chunks generalizing s with
  | nil => exact h
  | cons c chunks ih => exact ih (s := s.leave [c]) (pairwise_insertAscending h c)

/-! ### Pending bytes of a state -/

@[simp] theorem pending_note (s : Dispatch) (severity : Log.Severity) (message : String)
    (d : Direction) : (s.note severity message).pending d = s.pending d := by
  cases d <;> rfl

@[simp] theorem events_note (s : Dispatch) (severity : Log.Severity) (message : String) :
    (s.note severity message).events = s.events := rfl

@[simp] theorem methods_note (s : Dispatch) (severity : Log.Severity) (message : String) :
    (s.note severity message).methods = s.methods := rfl

@[simp] theorem leftOver_note (s : Dispatch) (severity : Log.Severity) (message : String) :
    (s.note severity message).leftOver = s.leftOver := rfl

@[simp] theorem pending_setPending (s : Dispatch) (p : Pending) (d e : Direction) :
    (s.setPending p d).pending e = if e = d then p else s.pending e := by
  cases d <;> cases e <;> rfl

@[simp] theorem events_setPending (s : Dispatch) (p : Pending) (d : Direction) :
    (s.setPending p d).events = s.events := by
  cases d <;> rfl

@[simp] theorem methods_setPending (s : Dispatch) (p : Pending) (d : Direction) :
    (s.setPending p d).methods = s.methods := by
  cases d <;> rfl

@[simp] theorem leftOver_setPending (s : Dispatch) (p : Pending) (d : Direction) :
    (s.setPending p d).leftOver = s.leftOver := by
  cases d <;> rfl

@[simp] theorem pending_giveUp (s : Dispatch) (id : Nat) (d e : Direction) (why : Reason) :
    (s.giveUp id d why).pending e = if e = d then (s.pending d).giveUp else s.pending e := by
  simp [giveUp]

@[simp] theorem events_giveUp (s : Dispatch) (id : Nat) (d : Direction) (why : Reason) :
    (s.giveUp id d why).events = s.events := by
  simp [giveUp]

@[simp] theorem methods_giveUp (s : Dispatch) (id : Nat) (d : Direction) (why : Reason) :
    (s.giveUp id d why).methods = s.methods := by
  simp [giveUp]

@[simp] theorem mem_leftOver_giveUp {why : Reason} {i : Nat} :
    i ∈ (s.giveUp id d why).leftOver ↔ i ∈ s.leftOver ∨ i ∈ (s.pending d).chunksLeft := by
  simp [giveUp]

theorem pairwise_giveUp (h : s.leftOver.Pairwise (· < ·)) (id : Nat) (d : Direction)
    (why : Reason) : (s.giveUp id d why).leftOver.Pairwise (· < ·) := by
  refine pairwise_leave ?_ _
  simpa using h

/-! ### Taking a message -/

/-- **A message is taken**: it stands at the front of what is pending in its direction, and nothing
but its direction changes. -/
structure Takes (s : Dispatch) (event : Event) (s' : Dispatch) : Prop where
  going : (s.pending event.direction).gaveUp = false
  wire_ne_nil : event.wire ≠ []
  front : event.wire <+: (s.pending event.direction).buffer
  start : (s.pending event.direction).startChunk? = some event.start
  events : s'.events = s.events ++ [event]
  pending : ∀ d, s'.pending d =
    if d = event.direction then (s.pending d).consume event.wire.length else s.pending d
  leftOver : s'.leftOver = s.leftOver

/-- The event of a request at the front of the client's bytes. -/
def requestEvent (s : Dispatch) (start h b : Nat) (m : Request) : Event :=
  .request start (s.client.buffer.take h) ((s.client.buffer.drop h).take b) m

/-- The event of a response at the front of the server's bytes. -/
def responseEvent (s : Dispatch) (start h b : Nat) (m : Response) : Event :=
  .response start (s.server.buffer.take h) ((s.server.buffer.drop h).take b) m

theorem wire_requestEvent (s : Dispatch) (start h b : Nat) (m : Request) :
    (s.requestEvent start h b m).wire = s.client.buffer.take (h + b) :=
  List.take_add.symm

theorem wire_responseEvent (s : Dispatch) (start h b : Nat) (m : Response) :
    (s.responseEvent start h b m).wire = s.server.buffer.take (h + b) :=
  List.take_add.symm

theorem takes_takeRequest (id : Nat) {start h b : Nat} {m : Request} (hg : s.client.gaveUp = false)
    (hb : s.client.buffer ≠ []) (hs : s.client.startChunk? = some start)
    (hp : parseRequest atEnd s.client.buffer = .complete h b m) :
    s.Takes (s.requestEvent start h b m) (s.takeRequest id start h b m) := by
  have hle := length_le_of_parseRequest hp
  have hpos := takesByte_parseRequest _ _ h b m hp hb
  have hw := wire_requestEvent s start h b m
  have hlen : (s.requestEvent start h b m).wire.length = h + b := by
    rw [hw, List.length_take, Nat.min_eq_left hle]
  refine ⟨hg, ?_, ?_, hs, rfl, ?_, rfl⟩
  · rw [← List.length_pos_iff, hlen]
    omega
  · rw [hw]
    exact List.take_prefix _ _
  · intro d
    rw [hlen]
    cases d <;> rfl

theorem takes_takeResponse (id : Nat) {method : Option String} {start h b : Nat} {m : Response}
    (hg : s.server.gaveUp = false) (hb : s.server.buffer ≠ [])
    (hs : s.server.startChunk? = some start)
    (hp : parseResponse atEnd method s.server.buffer = .complete h b m) :
    s.Takes (s.responseEvent start h b m) (s.takeResponse id start h b m) := by
  have hle := length_le_of_parseResponse hp
  have hpos := takesByte_parseResponse _ _ _ h b m hp hb
  have hw := wire_responseEvent s start h b m
  have hlen : (s.responseEvent start h b m).wire.length = h + b := by
    rw [hw, List.length_take, Nat.min_eq_left hle]
  refine ⟨hg, ?_, ?_, hs, rfl, ?_, rfl⟩
  · rw [← List.length_pos_iff, hlen]
    omega
  · rw [hw]
    exact List.take_prefix _ _
  · intro d
    rw [hlen]
    cases d <;> rfl

/-! ### Steps -/

/-- **One step of a run**, while bytes are pending in a direction that has not been given up. -/
inductive Step (id : Nat) (atEnd : Bool) (s : Dispatch) : Dispatch → Prop
  /-- A request is taken. -/
  | request {start h b : Nat} {m : Request} :
      s.client.gaveUp = false → s.client.buffer ≠ [] → s.client.startChunk? = some start →
      parseRequest atEnd s.client.buffer = .complete h b m →
      Step id atEnd s (s.takeRequest id start h b m)
  /-- A response is taken. -/
  | response {start h b : Nat} {m : Response} :
      s.server.gaveUp = false → s.server.buffer ≠ [] → s.server.startChunk? = some start →
      parseResponse atEnd s.methods.head? s.server.buffer = .complete h b m → m.status ≠ 101 →
      Step id atEnd s (s.takeResponse id start h b m)
  /-- A response is taken that switches the protocol. -/
  | switch {start h b : Nat} {m : Response} :
      s.server.gaveUp = false → s.server.buffer ≠ [] → s.server.startChunk? = some start →
      parseResponse atEnd s.methods.head? s.server.buffer = .complete h b m → m.status = 101 →
      Step id atEnd s
        (((s.takeResponse id start h b m).giveUp id .serverToClient .switched).giveUp id
          .clientToServer .switched)
  /-- The client's bytes are no request, or end within its head. -/
  | badRequest {why : Reason} :
      s.client.gaveUp = false → s.client.buffer ≠ [] →
      parseRequest atEnd s.client.buffer = .invalid why ∨
        atEnd = true ∧ parseRequest true s.client.buffer = .incomplete →
      Step id atEnd s (s.giveUp id .clientToServer why)
  /-- The server's bytes are no response, or end within its head. -/
  | badResponse {why : Reason} :
      s.server.gaveUp = false → s.server.buffer ≠ [] →
      parseResponse atEnd s.methods.head? s.server.buffer = .invalid why ∨
        atEnd = true ∧ parseResponse true s.methods.head? s.server.buffer = .incomplete →
      Step id atEnd s (s.giveUp id .serverToClient why)

/-- **What a step does**: it takes a message, it gives directions up, or both. What survives these
survives a step. -/
theorem Step.keeps {P : Dispatch → Prop}
    (htakes : ∀ {event : Event} {s s' : Dispatch}, P s → s.Takes event s' → P s')
    (hgiveUp : ∀ {s : Dispatch}, P s → ∀ d why, P (s.giveUp id d why))
    (hs : Step id atEnd s s') (h : P s) : P s' := by
  cases hs with
  | request hg hb hst hp => exact htakes h (takes_takeRequest id hg hb hst hp)
  | response hg hb hst hp hm => exact htakes h (takes_takeResponse id hg hb hst hp)
  | switch hg hb hst hp hm =>
    exact hgiveUp (hgiveUp (htakes h (takes_takeResponse id hg hb hst hp)) _ _) _ _
  | badRequest => exact hgiveUp h _ _
  | badResponse => exact hgiveUp h _ _

/-- What is pending in a direction is the beginning of a message. -/
def Waits (s : Dispatch) : Direction → Prop
  | .clientToServer => parseRequest false s.client.buffer = .incomplete
  | .serverToClient => parseResponse false s.methods.head? s.server.buffer = .incomplete

/-- **Reading one message is a step**, after which its direction may have been given up, or it
waits for more bytes. -/
theorem next_cases {start : Nat} {more : Bool} (hg : (s.pending d).gaveUp = false)
    (hb : (s.pending d).buffer ≠ []) (hs : (s.pending d).startChunk? = some start)
    (hn : s.next id d atEnd start = (s', more)) :
    (Step id atEnd s s' ∧ (more = true ∨ (s'.pending d).gaveUp = true)) ∨
      (s' = s ∧ more = false ∧ atEnd = false ∧ s.Waits d) := by
  cases d with
  | clientToServer =>
    simp only [next, nextRequest] at hn
    split at hn
    · rename_i h b m hp
      cases hn
      exact Or.inl ⟨Step.request hg hb hs hp, Or.inl rfl⟩
    · rename_i hp
      cases hn
      cases atEnd with
      | true => exact Or.inl ⟨Step.badRequest hg hb (Or.inr ⟨rfl, hp⟩), Or.inr (by simp; rfl)⟩
      | false => exact Or.inr ⟨rfl, rfl, rfl, hp⟩
    · rename_i why hp
      cases hn
      exact Or.inl ⟨Step.badRequest hg hb (Or.inl hp), Or.inr (by simp; rfl)⟩
  | serverToClient =>
    simp only [next, nextResponse] at hn
    split at hn
    · rename_i h b m hp
      split at hn
      · rename_i hm
        cases hn
        exact Or.inl ⟨Step.switch hg hb hs hp hm, Or.inr (by simp; rfl)⟩
      · rename_i hm
        cases hn
        exact Or.inl ⟨Step.response hg hb hs hp hm, Or.inl rfl⟩
    · rename_i hp
      cases hn
      cases atEnd with
      | true => exact Or.inl ⟨Step.badResponse hg hb (Or.inr ⟨rfl, hp⟩), Or.inr (by simp; rfl)⟩
      | false => exact Or.inr ⟨rfl, rfl, rfl, hp⟩
    · rename_i why hp
      cases hn
      exact Or.inl ⟨Step.badResponse hg hb (Or.inl hp), Or.inr (by simp; rfl)⟩

/-- What survives a step survives any number of them. -/
theorem holds_of_steps {P : Dispatch → Prop} (hstep : ∀ {s s'}, P s → Step id atEnd s s' → P s')
    (hs : Relation.ReflTransGen (Step id atEnd) s s') (h : P s) : P s' := by
  induction hs with
  | refl => exact h
  | tail _ hlast ih => exact hstep ih hlast

/-! ### Drains -/

/-- No direction has bytes whose chunks are not known. -/
def IsCovered (s : Dispatch) : Prop := ∀ d, (s.pending d).IsCovered

theorem Takes.isCovered {event : Event} (ht : s.Takes event s') (h : s.IsCovered) :
    s'.IsCovered := by
  intro d
  rw [ht.pending]
  split
  · exact Pending.isCovered_consume (h d) _
  · exact h d

theorem isCovered_giveUp (h : s.IsCovered) (id : Nat) (d : Direction) (why : Reason) :
    (s.giveUp id d why).IsCovered := by
  intro e
  rw [pending_giveUp]
  split
  · exact Pending.isCovered_giveUp _
  · exact h e

theorem Step.isCovered (hs : Step id atEnd s s') (h : s.IsCovered) : s'.IsCovered :=
  hs.keeps (fun h ht => ht.isCovered h) (fun h d why => isCovered_giveUp h id d why) h

/-- **A drain is a sequence of steps.** -/
theorem drain_steps (id : Nat) (d : Direction) (atEnd : Bool) (s : Dispatch) :
    Relation.ReflTransGen (Step id atEnd) s (s.drain id d atEnd) := by
  fun_induction drain id d atEnd s with
  | case1 s hb => exact .refl
  | case2 s hb hs => exact .refl
  | case3 s hb start hs after hn ih =>
    obtain ⟨hg, hb⟩ := not_or.mp hb
    rcases next_cases (by simpa using hg) hb hs hn with ⟨hstep, -⟩ | ⟨-, hm, -⟩
    · exact .head hstep ih
    · cases hm
  | case4 s hb start hs after hn =>
    obtain ⟨hg, hb⟩ := not_or.mp hb
    rcases next_cases (by simpa using hg) hb hs hn with ⟨hstep, -⟩ | ⟨rfl, -⟩
    · exact .single hstep
    · exact .refl

/-- **A drain goes on** until its direction is given up, nothing is pending, or the beginning of a
message waits for more; at the end of the stream nothing waits. -/
theorem drain_settled (id : Nat) (d : Direction) (atEnd : Bool) {s : Dispatch} (hc : s.IsCovered) :
    ((s.drain id d atEnd).pending d).gaveUp = true ∨ ((s.drain id d atEnd).pending d).buffer = [] ∨
      atEnd = false ∧ (s.drain id d atEnd).Waits d := by
  fun_induction drain id d atEnd s with
  | case1 s hb => exact hb.imp_right Or.inl
  | case2 s hb hs => exact absurd hs ((hc d).startChunk?_ne_none (not_or.mp hb).2)
  | case3 s hb start hs after hn ih =>
    obtain ⟨hg, hb⟩ := not_or.mp hb
    rcases next_cases (by simpa using hg) hb hs hn with ⟨hstep, -⟩ | ⟨-, hm, -⟩
    · exact ih (hstep.isCovered hc)
    · cases hm
  | case4 s hb start hs after hn =>
    obtain ⟨hg, hb⟩ := not_or.mp hb
    rcases next_cases (by simpa using hg) hb hs hn with ⟨-, hm | hg'⟩ | ⟨rfl, -, he, hw⟩
    · cases hm
    · exact Or.inl hg'
    · exact Or.inr (Or.inr ⟨he, hw⟩)

/-! ### Chunks -/

/-- A chunk arrives: it is left over if its direction has been given up, and appended to what is
pending otherwise. -/
def arrive (s : Dispatch) (index : Nat) (chunk : Chunk) : Dispatch :=
  if (s.pending chunk.direction).gaveUp then s.leave [index]
  else s.setPending ((s.pending chunk.direction).push index chunk.content) chunk.direction

/-- Taking a chunk is letting it arrive and then reading what there is. -/
theorem feed_eq (id : Nat) (s : Dispatch) (index : Nat) (chunk : Chunk) :
    s.feed id index chunk = (s.arrive index chunk).drain id chunk.direction false := by
  by_cases hg : (s.pending chunk.direction).gaveUp
  · rw [feed, arrive, if_pos hg, if_pos hg, drain, dif_pos (by simp [hg])]
  · rw [feed, arrive, if_neg hg, if_neg hg]

theorem isCovered_arrive (h : s.IsCovered) (index : Nat) (chunk : Chunk) :
    (s.arrive index chunk).IsCovered := by
  intro d
  rw [arrive]
  split
  · rw [pending_leave]
    exact h d
  · rw [pending_setPending]
    split
    · exact Pending.isCovered_push (h _) _ _
    · exact h d

theorem feedFrom_append (id : Nat) (s : Dispatch) (index : Nat) (before after : List Chunk) :
    s.feedFrom id index (before ++ after) =
      (s.feedFrom id index before).feedFrom id (index + before.length) after := by
  induction before generalizing s index with
  | nil => rfl
  | cons chunk before ih =>
    rw [List.cons_append, feedFrom, ih, feedFrom, List.length_cons, Nat.add_assoc, Nat.add_comm 1]

end Dispatch

/-! ### The states of a run -/

/-- The state before the first chunk. -/
def opening (stream : Stream) : Dispatch :=
  { log := Log.one .debug
      s!"[{stream.metadata.id}] dispatching {stream.chunks.length} chunk(s)" }

/-- **The state between two chunks**, when so many chunks have been taken. -/
def stage (stream : Stream) (n : Nat) : Dispatch :=
  (opening stream).feedFrom stream.metadata.id 0 (stream.chunks.take n)

variable {stream : Stream} {n : Nat} {s s' : Dispatch}

@[simp] theorem stage_zero (stream : Stream) : stage stream 0 = opening stream := by
  simp [stage, Dispatch.feedFrom]

theorem stage_succ {chunk : Chunk} (h : stream.chunks[n]? = some chunk) :
    stage stream (n + 1) = (stage stream n).feed stream.metadata.id n chunk := by
  have hlt : n < stream.chunks.length := (List.getElem?_eq_some_iff.mp h).1
  rw [stage, List.take_add_one, h, Option.toList_some, Dispatch.feedFrom_append,
    List.length_take, Nat.min_eq_left (Nat.le_of_lt hlt), Nat.zero_add]
  rfl

theorem dispatch_eq (stream : Stream) :
    dispatch stream =
      (((stage stream stream.chunks.length).drain stream.metadata.id .clientToServer true).drain
        stream.metadata.id .serverToClient true) := by
  rw [stage, List.take_length]
  rfl

/-- **The states of a run**, with the number of chunks taken so far. -/
inductive Reached (stream : Stream) : Nat → Dispatch → Prop
  /-- The opening state. -/
  | opening : Reached stream 0 (opening stream)
  /-- A chunk arrives. -/
  | arrive {n : Nat} {chunk : Chunk} : Reached stream n (stage stream n) →
      stream.chunks[n]? = some chunk → Reached stream (n + 1) ((stage stream n).arrive n chunk)
  /-- A step, one of those at the end of the stream only when all chunks have been taken. -/
  | step {n : Nat} {atEnd : Bool} {s s' : Dispatch} : Reached stream n s →
      (atEnd = true → n = stream.chunks.length) → s.Step stream.metadata.id atEnd s' →
      Reached stream n s'

theorem Reached.steps {atEnd : Bool} (h : Reached stream n s)
    (he : atEnd = true → n = stream.chunks.length)
    (hs : Relation.ReflTransGen (Dispatch.Step stream.metadata.id atEnd) s s') :
    Reached stream n s' :=
  Dispatch.holds_of_steps (fun h hstep => .step h he hstep) hs h

/-- The states between chunks are reached. -/
theorem reached_stage (h : n ≤ stream.chunks.length) : Reached stream n (stage stream n) := by
  induction n with
  | zero =>
    rw [stage_zero]
    exact .opening
  | succ n ih =>
    have hc : stream.chunks[n]? = some stream.chunks[n] := List.getElem?_eq_getElem h
    rw [stage_succ hc, Dispatch.feed_eq]
    refine (Reached.arrive (ih (Nat.le_of_succ_le h)) hc).steps ?_ (Dispatch.drain_steps _ _ _ _)
    intro he
    cases he

/-- At the end of the stream the client's bytes are read first. -/
theorem reached_clientEnd (stream : Stream) :
    Reached stream stream.chunks.length
      ((stage stream stream.chunks.length).drain stream.metadata.id .clientToServer true) :=
  (reached_stage (Nat.le_refl _)).steps (fun _ => rfl) (Dispatch.drain_steps _ _ _ _)

/-- The last state is reached. -/
theorem reached_dispatch (stream : Stream) :
    Reached stream stream.chunks.length (dispatch stream) := by
  rw [dispatch_eq]
  exact (reached_clientEnd stream).steps (fun _ => rfl) (Dispatch.drain_steps _ _ _ _)

/-- **From one stage on**: what holds there, and survives chunks and steps, holds at all later
stages and in the last state. -/
theorem holds_from_stage {P : Dispatch → Prop} {i : Nat} (hi : P (stage stream i))
    (harrive : ∀ s index chunk, P s → P (s.arrive index chunk))
    (hstep : ∀ s s' atEnd, P s → s.Step stream.metadata.id atEnd s' → P s')
    (hle : i ≤ stream.chunks.length) :
    (∀ j, i ≤ j → j ≤ stream.chunks.length → P (stage stream j)) ∧ P (dispatch stream) := by
  have hdrain : ∀ s d atEnd, P s → P (s.drain stream.metadata.id d atEnd) :=
    fun s d atEnd => Dispatch.holds_of_steps (fun h => hstep _ _ _ h) (Dispatch.drain_steps _ _ _ s)
  have hstages : ∀ j, i ≤ j → j ≤ stream.chunks.length → P (stage stream j) := by
    intro j hij
    induction j, hij using Nat.le_induction with
    | base => exact fun _ => hi
    | succ j _ ih =>
      intro hj
      have hc : stream.chunks[j]? = some stream.chunks[j] := List.getElem?_eq_getElem hj
      rw [stage_succ hc, Dispatch.feed_eq]
      exact hdrain _ _ _ (harrive _ _ _ (ih (Nat.le_of_succ_le hj)))
  refine ⟨hstages, ?_⟩
  rw [dispatch_eq]
  exact hdrain _ _ _ (hdrain _ _ _ (hstages _ hle (Nat.le_refl _)))

/-- In the states of a run the chunks of all pending bytes are known. -/
theorem Reached.isCovered (h : Reached stream n s) : s.IsCovered := by
  induction h with
  | opening =>
    rintro (_ | _) <;> rfl
  | arrive _ _ ih => exact Dispatch.isCovered_arrive ih _ _
  | step _ _ hstep ih => exact hstep.isCovered ih

/-- **Between two chunks** the direction of the last one has been given up, has nothing pending, or
waits for the rest of a message. -/
theorem stage_settled {chunk : Chunk} (h : stream.chunks[n]? = some chunk) :
    ((stage stream (n + 1)).pending chunk.direction).gaveUp = true ∨
      ((stage stream (n + 1)).pending chunk.direction).buffer = [] ∨
      (stage stream (n + 1)).Waits chunk.direction := by
  have hlt : n < stream.chunks.length := (List.getElem?_eq_some_iff.mp h).1
  have hc := (Reached.arrive (reached_stage (Nat.le_of_lt hlt)) h).isCovered
  rw [stage_succ h, Dispatch.feed_eq]
  exact (Dispatch.drain_settled _ _ _ hc).imp_right (Or.imp_right And.right)

end HttpReplay.Http
