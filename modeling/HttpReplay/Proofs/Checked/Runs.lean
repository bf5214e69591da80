import HttpReplay.Proofs.Checked.Heads
import HttpReplay.Proofs.Dispatch.Cuts

/-!
# Runs, with positions

A run over a stream as a machine makes it. A message is cut out of its buffer by the lengths of its
head and its body, the chunk in which it starts is looked up, and the spans of the buffer are
counted down. A drain is a loop without a limit of its own: it ends because every round but the last
takes a byte off the buffer. What is known of the states of a run (`HttpReplay.Http.Reached`) keeps
all this within the lists.

* `HttpReplay.Checked.next_eq` and `HttpReplay.Checked.drain_eq` are about messages and drains;
* `HttpReplay.Checked.dispatch_safe` is about whole runs.
-/

namespace HttpReplay.Checked

open Http Http.Dispatch Http.Event

/-! ### Taking bytes -/

/-- Take so many bytes off the front of some spans. -/
def consumeSpans : Nat → List Span → Guarded (List Span)
  | _, [] => return []
  | n, s :: rest =>
    if n < s.remaining then do
      return { s with remaining := ← difference s.remaining n } :: rest
    else do consumeSpans (← difference n s.remaining) rest

/-- Take so many bytes off the front of what is pending. -/
def consume (p : Pending) (n : Nat) : Guarded Pending := do
  return { p with buffer := ← sliceFrom p.buffer n, spans := ← consumeSpans n p.spans }

theorem consumeSpans_eq (n : Nat) (spans : List Span) :
    consumeSpans n spans = .ok (Pending.consumeSpans n spans) := by
  induction spans generalizing n with
  | nil => rfl
  | cons s rest ih =>
    rw [consumeSpans, Pending.consumeSpans]
    split
    · rename_i hlt
      rw [difference_eq_ok (Nat.le_of_lt hlt)]
      rfl
    · rename_i hge
      rw [difference_eq_ok (Nat.not_lt.mp hge), ok_bind, ih]

theorem consume_eq {p : Pending} {n : Nat} (h : n ≤ p.buffer.length) :
    consume p n = .ok (p.consume n) := by
  rw [consume, sliceFrom_eq_ok h, ok_bind, consumeSpans_eq]
  rfl

/-! ### Taking messages -/

/-- The bytes of a head and of the body behind it, where they start, and what is pending behind
them. -/
def cut (chunks : List Chunk) (start headLength bodyLength : Nat) (p : Pending) :
    Guarded (Bytes × Bytes × Pending) := do
  let last ← sum headLength bodyLength
  let head ← slice p.buffer 0 headLength
  let raw ← slice p.buffer headLength last
  let _ ← element chunks start
  return (head, raw, ← consume p last)

/-- Read one request; the answer also says whether there may be another. -/
def nextRequest (chunks : List Chunk) (id : Nat) (atEnd : Bool) (start : Nat) (s : Dispatch) :
    Guarded (Dispatch × Bool) := do
  match ← parseRequest atEnd s.client.buffer with
  | .complete headLength bodyLength message =>
    let (head, raw, client) ← cut chunks start headLength bodyLength s.client
    let events := s.events ++ [.request start head raw message]
    return ({ s.takeRequest id start headLength bodyLength message with events, client }, true)
  | .incomplete =>
    return (if atEnd then s.giveUp id .clientToServer .truncatedRequest else s, false)
  | .invalid why => return (s.giveUp id .clientToServer why, false)

/-- Read one response; the answer also says whether there may be another. -/
def nextResponse (chunks : List Chunk) (id : Nat) (atEnd : Bool) (start : Nat) (s : Dispatch) :
    Guarded (Dispatch × Bool) := do
  match ← parseResponse atEnd s.methods.head? s.server.buffer with
  | .complete headLength bodyLength message =>
    let (head, raw, server) ← cut chunks start headLength bodyLength s.server
    let events := s.events ++ [.response start head raw message]
    let s := { s.takeResponse id start headLength bodyLength message with events, server }
    if message.status = 101 then
      return ((s.giveUp id .serverToClient .switched).giveUp id .clientToServer .switched, false)
    else return (s, true)
  | .incomplete =>
    return (if atEnd then s.giveUp id .serverToClient .truncatedResponse else s, false)
  | .invalid why => return (s.giveUp id .serverToClient why, false)

/-- Read one message of a direction. -/
def next (chunks : List Chunk) (id : Nat) (d : Direction) (atEnd : Bool) (start : Nat)
    (s : Dispatch) : Guarded (Dispatch × Bool) :=
  match d with
  | .clientToServer => nextRequest chunks id atEnd start s
  | .serverToClient => nextResponse chunks id atEnd start s

/-- **The buffers of a run fit in memory**: each is shorter than `2 ^ 63` bytes. -/
def Fits (stream : Stream) : Prop :=
  ∀ n s, Reached stream n s → ∀ d, (s.pending d).buffer.length < bufferLimit

section Steps

variable {stream : Stream} {n : Nat} {s : Dispatch} {d : Direction} {atEnd : Bool} {start : Nat}

theorem cut_eq {p : Pending} {h b : Nat} (hb : p.buffer.length < bufferLimit)
    (hle : h + b ≤ p.buffer.length) (hstart : start < stream.chunks.length) :
    cut stream.chunks start h b p =
      .ok (p.buffer.take h, (p.buffer.drop h).take b, p.consume (h + b)) := by
  have hsum : sum h b = .ok (h + b) := sum_eq_ok (by have := wordLimit_eq; omega)
  rw [cut, hsum, ok_bind, slice_eq_ok (Nat.zero_le h) (by omega), ok_bind,
    slice_eq_ok (Nat.le_add_right h b) hle, ok_bind,
    element_eq_ok (List.getElem?_eq_getElem hstart), ok_bind, consume_eq hle, List.drop_zero,
    Nat.sub_zero, Nat.add_sub_cancel_left]
  rfl

/-- A message that is taken starts in a chunk of the stream. -/
theorem start_lt_of_takes {event : Event} {s' : Dispatch} (hr : Reached stream n s)
    (ht : s.Takes event s') : event.start < stream.chunks.length := by
  obtain ⟨-, chunk, hc, -⟩ := Stream.getElem?_originsBefore.mp (hr.ledger.origin_of_takes ht)
  exact (List.getElem?_eq_some_iff.mp hc).1

/-- **A message is read** within the lists. -/
theorem next_eq (hfits : Fits stream) (hr : Reached stream n s) (hg : (s.pending d).gaveUp = false)
    (hb : (s.pending d).buffer ≠ []) (hst : (s.pending d).startChunk? = some start) (id : Nat) :
    next stream.chunks id d atEnd start s = .ok (s.next id d atEnd start) := by
  have hfit := hfits n s hr d
  cases d with
  | clientToServer =>
    change s.client.buffer.length < bufferLimit at hfit
    rw [next, Dispatch.next, nextRequest, Dispatch.nextRequest, parseRequest_eq hfit, ok_bind]
    cases hp : Http.parseRequest atEnd s.client.buffer with
    | complete h b m =>
      have hstart : start < stream.chunks.length :=
        start_lt_of_takes hr (takes_takeRequest id hg hb hst hp)
      simp only [cut_eq hfit (length_le_of_parseRequest hp) hstart, ok_bind]
      rfl
    | incomplete => rfl
    | invalid why => rfl
  | serverToClient =>
    change s.server.buffer.length < bufferLimit at hfit
    rw [next, Dispatch.next, nextResponse, Dispatch.nextResponse, parseResponse_eq hfit, ok_bind]
    cases hp : Http.parseResponse atEnd s.methods.head? s.server.buffer with
    | complete h b m =>
      have hstart : start < stream.chunks.length :=
        start_lt_of_takes hr (takes_takeResponse id hg hb hst hp)
      simp only [cut_eq hfit (length_le_of_parseResponse hp) hstart, ok_bind]
      split
      · rfl
      · rfl
    | incomplete => rfl
    | invalid why => rfl

/-! ### Drains -/

/-- One round of a drain: the state to go on with, or else the one to end with. -/
def drainRound (chunks : List Chunk) (id : Nat) (d : Direction) (atEnd : Bool) (s : Dispatch) :
    Guarded (Dispatch ⊕ Dispatch) :=
  if (s.pending d).gaveUp ∨ (s.pending d).buffer = [] then return .inr s
  else
    match (s.pending d).startChunk? with
    | none => return .inr s
    | some start => do
      match ← next chunks id d atEnd start s with
      | (after, true) => return .inl after
      | (after, false) => return .inr after

/-- Read messages of a direction until there is none, in no more rounds than there are bytes. -/
def drain (chunks : List Chunk) (id : Nat) (d : Direction) (atEnd : Bool) (s : Dispatch) :
    Guarded Dispatch :=
  loop (drainRound chunks id d atEnd) ((s.pending d).buffer.length + 1) s

/-- **A round takes a byte off the buffer**, or it is the last one. -/
theorem drainRound_advances (hfits : Fits stream) (he : atEnd = true → n = stream.chunks.length)
    (s : Dispatch) (hr : Reached stream n s) :
    Advances (drainRound stream.chunks stream.metadata.id d atEnd) (Reached stream n)
      (fun s => (s.pending d).buffer.length) (fun s => s.drain stream.metadata.id d atEnd) s := by
  by_cases hread : s.IsReadable d
  · have ⟨hg, hb⟩ := hread
    obtain ⟨start, hst⟩ := hr.isCovered.exists_startChunk? hread
    rw [Advances, drainRound, if_neg (by simp [hg, hb]), hst, drain_of_isReadable _ _ hread hst]
    dsimp only
    rw [next_eq hfits hr hg hb hst, ok_bind]
    rcases hn : s.next stream.metadata.id d atEnd start with ⟨after, more⟩
    cases more with
    | false => exact Or.inl rfl
    | true =>
      have hstep : s.Step stream.metadata.id atEnd after :=
        (Dispatch.next_cases hg hb hst hn).elim And.left fun h => by cases h.2.1
      exact Or.inr ⟨after, rfl, hr.step he hstep, pending_lt_of_next hn hb, rfl⟩
  · rw [Advances, drainRound, drain_of_not_isReadable _ _ hread]
    rw [IsReadable, not_and_not_right] at hread
    rw [if_pos]
    · exact Or.inl rfl
    · cases hg : (s.pending d).gaveUp with
      | true => exact Or.inl rfl
      | false => exact Or.inr (hread hg)

theorem drain_eq (hfits : Fits stream) (hr : Reached stream n s)
    (he : atEnd = true → n = stream.chunks.length) :
    drain stream.chunks stream.metadata.id d atEnd s =
      .ok (s.drain stream.metadata.id d atEnd) :=
  loop_eq_ok (drainRound_advances hfits he) hr (Nat.lt_succ_self _)

end Steps

/-! ### Whole streams -/

/-- Take the chunk at a position of the stream. -/
def feed (chunks : List Chunk) (id : Nat) (s : Dispatch) (index : Nat) (chunk : Chunk) :
    Guarded Dispatch :=
  let p := s.pending chunk.direction
  if p.gaveUp then return s.leave [index]
  else
    drain chunks id chunk.direction false
      (s.setPending (p.push index chunk.content) chunk.direction)

/-- Take chunks from a position of the stream on. -/
def feedFrom (chunks : List Chunk) (id : Nat) (s : Dispatch) (index : Nat) :
    List Chunk → Guarded Dispatch
  | [] => return s
  | chunk :: rest => do feedFrom chunks id (← feed chunks id s index chunk) (index + 1) rest

/-- Take the end of the stream, and look up the chunks that were left over. -/
def finish (chunks : List Chunk) (id : Nat) (s : Dispatch) : Guarded (Dispatch × List Chunk) := do
  let s ← drain chunks id .clientToServer true s
  let s ← drain chunks id .serverToClient true s
  return (s, ← s.leftOver.mapM (element chunks))

/-- **Dispatch a stream**: the last state, and the chunks that were left over. -/
def dispatch (stream : Stream) : Guarded (Dispatch × List Chunk) := do
  let s ← feedFrom stream.chunks stream.metadata.id (opening stream) 0 stream.chunks
  finish stream.chunks stream.metadata.id s

section Streams

variable {stream : Stream} {n : Nat} {s : Dispatch} {d : Direction}

theorem feed_eq (hfits : Fits stream) {chunk : Chunk} (hc : stream.chunks[n]? = some chunk) :
    feed stream.chunks stream.metadata.id (stage stream n) n chunk =
      .ok (stage stream (n + 1)) := by
  have hn : n ≤ stream.chunks.length := Nat.le_of_lt (List.getElem?_eq_some_iff.mp hc).1
  rw [stage_succ hc, feed, Dispatch.feed]
  split
  · rfl
  · rename_i hg
    have harrive := Reached.arrive (reached_stage hn) hc
    rw [Dispatch.arrive, if_neg hg] at harrive
    exact drain_eq hfits harrive (by simp)

theorem feedFrom_eq (hfits : Fits stream) (rest : List Chunk) (n : Nat)
    (hrest : stream.chunks.drop n = rest) (hn : n ≤ stream.chunks.length) :
    feedFrom stream.chunks stream.metadata.id (stage stream n) n rest =
      .ok (stage stream stream.chunks.length) := by
  induction rest generalizing n with
  | nil =>
    have : stream.chunks.length ≤ n := List.drop_eq_nil_iff.mp hrest
    rw [feedFrom, Nat.le_antisymm hn this]
    rfl
  | cons chunk rest ih =>
    have hc : stream.chunks[n]? = some chunk := by
      rw [← List.head?_drop, hrest, List.head?_cons]
    have hlt : n < stream.chunks.length := (List.getElem?_eq_some_iff.mp hc).1
    rw [feedFrom, feed_eq hfits hc, ok_bind]
    refine ih (n + 1) ?_ hlt
    rw [← List.drop_drop, hrest]
    rfl

theorem mapM_element {chunks : List Chunk} {positions : List Nat}
    (h : ∀ i ∈ positions, i < chunks.length) :
    positions.mapM (element chunks) = .ok (positions.filterMap (chunks[·]?)) := by
  induction positions with
  | nil => rfl
  | cons i positions ih =>
    obtain ⟨hi, hrest⟩ := List.forall_mem_cons.mp h
    have hget := List.getElem?_eq_getElem hi
    rw [List.mapM_cons, element_eq_ok hget, ok_bind, ih hrest, List.filterMap_cons, hget]
    rfl

/-- **A run** stays within the lists and the words, and ends. -/
theorem dispatch_eq (hfits : Fits stream) :
    dispatch stream = .ok (Http.dispatch stream,
      (Http.dispatch stream).leftOver.filterMap (stream.chunks[·]?)) := by
  have hlast := reached_stage (Nat.le_refl stream.chunks.length)
  have hleft : ∀ i ∈ (Http.dispatch stream).leftOver, i < stream.chunks.length :=
    fun i hi => (((reached_dispatch stream).ledger.left i).mp hi).1
  have hfeed := feedFrom_eq hfits stream.chunks 0 rfl (Nat.zero_le _)
  rw [stage_zero] at hfeed
  rw [dispatch, hfeed, ok_bind, finish, drain_eq hfits hlast (fun _ => rfl), ok_bind,
    drain_eq hfits (reached_clientEnd stream) (fun _ => rfl), ok_bind, ← Http.dispatch_eq,
    mapM_element hleft]
  rfl

/-! ### Bounds -/

theorem length_bytesBefore_le (stream : Stream) (d : Direction) (n : Nat) :
    (stream.bytesBefore d n).length ≤ (stream.bytes d).length := by
  rw [← Stream.bytesBefore_append_bytesFrom n, List.length_append]
  exact Nat.le_add_right _ _

/-- What is pending in a direction are bytes of that direction. -/
theorem length_pending_le (hr : Reached stream n s) (d : Direction) :
    (s.pending d).buffer.length ≤ (stream.bytes d).length := by
  cases hg : (s.pending d).gaveUp with
  | true =>
    rw [hr.ledger.stopped d hg]
    exact Nat.zero_le _
  | false =>
    have hgoing := congrArg List.length (hr.ledger.going d hg)
    have := length_bytesBefore_le stream d n
    rw [List.length_append] at hgoing
    omega

/-- The buffers of a stream whose directions fit in memory do so too. -/
theorem fits_of_bytes (h : ∀ d, (stream.bytes d).length < bufferLimit) : Fits stream :=
  fun _ _ hr d => Nat.lt_of_le_of_lt (length_pending_le hr d) (h d)

/-- Every message that was taken took a byte. -/
theorem wire_ne_nil_of_mem_events (hr : Reached stream n s) :
    ∀ event ∈ s.events, event.wire ≠ [] := by
  induction hr with
  | opening => simp [opening]
  | arrive _ _ ih => rwa [events_arrive]
  | step _ _ hstep ih =>
    refine hstep.keeps (P := fun s => ∀ event ∈ s.events, event.wire ≠ []) ?_ ?_ ih
    · intro event s s' h ht e he
      rw [ht.events, List.mem_append, List.mem_singleton] at he
      rcases he with he | rfl
      · exact h e he
      · exact ht.wire_ne_nil
    · intro s h e why
      rwa [events_giveUp]

theorem length_le_flatMap {α : Type} {f : α → Bytes} {list : List α}
    (h : ∀ a ∈ list, f a ≠ []) : list.length ≤ (list.flatMap f).length := by
  induction list with
  | nil => exact Nat.le_refl 0
  | cons a list ih =>
    obtain ⟨ha, hrest⟩ := List.forall_mem_cons.mp h
    have := List.length_pos_iff.mpr ha
    have := ih hrest
    rw [List.flatMap_cons, List.length_append, List.length_cons]
    omega

/-- **A direction of so many bytes** has at most so many messages. -/
theorem length_events_le (hr : Reached stream n s) (d : Direction) :
    (s.events.filter (·.direction = d)).length ≤ (stream.bytes d).length := by
  have hwire : ∀ event ∈ s.events.filter (·.direction = d), event.wire ≠ [] :=
    fun event he => wire_ne_nil_of_mem_events hr event (List.mem_of_mem_filter he)
  calc (s.events.filter (·.direction = d)).length
    _ ≤ (wireOf d s.events).length := length_le_flatMap hwire
    _ ≤ (stream.bytesBefore d n).length := (hr.ledger.taken d).length_le
    _ ≤ (stream.bytes d).length := length_bytesBefore_le stream d n

end Streams

/-- A request that is read takes a byte for its head, and is in the buffer. -/
theorem bounds_of_parseRequest {atEnd : Bool} {buffer : Bytes} {h b : Nat} {m : Request}
    (hp : Http.parseRequest atEnd buffer = .complete h b m) : 1 ≤ h ∧ h + b ≤ buffer.length := by
  refine ⟨takesByte_parseRequest _ _ h b m hp ?_, length_le_of_parseRequest hp⟩
  rintro rfl
  rw [parseRequest_nil] at hp
  cases hp

/-- A response that is read takes a byte for its head, and is in the buffer. -/
theorem bounds_of_parseResponse {atEnd : Bool} {method : Option String} {buffer : Bytes} {h b : Nat}
    {m : Response} (hp : Http.parseResponse atEnd method buffer = .complete h b m) :
    1 ≤ h ∧ h + b ≤ buffer.length := by
  refine ⟨takesByte_parseResponse _ _ _ h b m hp ?_, length_le_of_parseResponse hp⟩
  rintro rfl
  rw [parseResponse_nil] at hp
  cases hp

/-- **No run fails, and every run ends.** Let the buffers of a run fit in memory, whatever lengths
and sizes the stream names. The run that is made with positions then comes to its end without a
fault, in the same state as the run of the library and with the same chunks left over: no sum leaves
the words, no slice and no element lies outside of its list, and no loop makes more rounds than it
is given. A direction has at most as many messages as it has bytes, because a round of a drain that
is not the last takes a byte off the buffer. And on any buffer that fits in memory a message is read
without a fault; where it is there, its head takes at least one byte, and its head and its body take
bytes of the buffer. -/
theorem dispatch_safe (stream : Stream) (hfits : Fits stream) :
    dispatch stream = .ok (Http.dispatch stream,
      (Http.dispatch stream).leftOver.filterMap (stream.chunks[·]?)) ∧
    (∀ d, ((Http.dispatch stream).events.filter (·.direction = d)).length ≤
      (stream.bytes d).length) ∧
    (∀ n s d atEnd s', Reached stream n s → (atEnd = true → n = stream.chunks.length) →
      drainRound stream.chunks stream.metadata.id d atEnd s = .ok (.inl s') →
        (s'.pending d).buffer.length < (s.pending d).buffer.length) ∧
    (∀ atEnd (buffer : Bytes), buffer.length < bufferLimit →
      parseRequest atEnd buffer = .ok (Http.parseRequest atEnd buffer) ∧
      ∀ h b m, Http.parseRequest atEnd buffer = .complete h b m →
        1 ≤ h ∧ h + b ≤ buffer.length) ∧
    ∀ atEnd method (buffer : Bytes), buffer.length < bufferLimit →
      parseResponse atEnd method buffer = .ok (Http.parseResponse atEnd method buffer) ∧
      ∀ h b m, Http.parseResponse atEnd method buffer = .complete h b m →
        1 ≤ h ∧ h + b ≤ buffer.length := by
  refine ⟨dispatch_eq hfits, length_events_le (reached_dispatch stream), ?_,
    fun atEnd buffer hb => ⟨parseRequest_eq hb atEnd, fun _ _ _ => bounds_of_parseRequest⟩,
    fun atEnd method buffer hb => ⟨parseResponse_eq hb atEnd method, fun _ _ _ =>
      bounds_of_parseResponse⟩⟩
  intro n s d atEnd s' hr he hround
  rcases drainRound_advances (d := d) hfits he s hr with hend | ⟨t, hgo, -, hlt, -⟩
  · rw [hround] at hend
    cases hend
  · rw [hround] at hgo
    cases hgo
    exact hlt

/-- A client that names the greatest size of a piece and a server that names the greatest length. -/
def greatest : Stream where
  metadata := { id := 1, serverHost := "192.0.2.1", serverPort := 80 }
  chunks :=
    [⟨.clientToServer, Bytes.ascii
        "POST / HTTP/1.1\r\nTransfer-Encoding: chunked\r\n\r\nffffffffffffffff\r\nab", ⟨0, 0⟩⟩,
      ⟨.serverToClient, Bytes.ascii
        "HTTP/1.1 200 OK\r\nContent-Length: 18446744073709551615\r\n\r\nok", ⟨1, 0⟩⟩]

theorem dispatch_greatest :
    Fits greatest ∧ dispatch greatest = .ok (Http.dispatch greatest, greatest.chunks.take 1) ∧
      (Http.dispatch greatest).events.length = 1 := by
  have hfits : Fits greatest := by
    refine fits_of_bytes ?_
    rintro (_ | _) <;> decide +kernel
  have hrun := (dispatch_safe greatest hfits).1
  have hleft : (Http.dispatch greatest).leftOver.filterMap (greatest.chunks[·]?) =
      greatest.chunks.take 1 := by decide +kernel
  rw [hleft] at hrun
  exact ⟨hfits, hrun, by decide +kernel⟩

end HttpReplay.Checked
