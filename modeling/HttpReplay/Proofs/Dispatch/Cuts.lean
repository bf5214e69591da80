import HttpReplay.Proofs.Dispatch.Account

/-!
# Cuts between chunks

Where a capture is cut into chunks is an accident of the network. This file shows that it leaves
no trace in the messages: a run over a stream and a run over the same stream with one chunk cut in
two make the same calls in the same order. The two runs do not pass through the same states, as the
second one reads the first part of the chunk earlier. What carries the proof is that reading early
does no harm: a message that is taken, or bytes that are given up, would have been taken or given up
with more bytes behind them too (`HttpReplay.Http.Dispatch.alike_drain_arrive`).

* `HttpReplay.Http.Dispatch.Alike` relates states that differ in nothing but the numbers of
  chunks, and `HttpReplay.Http.Dispatch.Alike.drain` says that reading keeps them alike;
* `HttpReplay.Http.dispatch_cut` is the theorem.
-/

namespace HttpReplay.Http

open Dispatch Event

namespace Event

/-- What a message is, wherever it starts. -/
def taken : Event → Taken Request ⊕ Taken Response
  | .request _ head raw message => .inl ⟨head, raw, message⟩
  | .response _ head raw message => .inr ⟨head, raw, message⟩

/-- The bytes of the head of a message. -/
def head : Event → Bytes
  | .request _ head _ _ => head
  | .response _ head _ _ => head

theorem head_prefix_wire (event : Event) : event.head <+: event.wire := by
  cases event <;> exact List.prefix_append _ _

end Event

namespace Dispatch

variable {id id' start start' : Nat} {atEnd : Bool} {d : Direction} {s t u after : Dispatch}
variable {chunk : Chunk}

/-! ### States that are alike -/

/-- **States that are alike**: the same bytes are pending, the same directions were given up, the
same methods are queued and the same messages were taken. Where the messages start, which chunks
are left over and what the log says may differ. -/
structure Alike (s t : Dispatch) : Prop where
  buffer : ∀ d, (s.pending d).buffer = (t.pending d).buffer
  gaveUp : ∀ d, (s.pending d).gaveUp = (t.pending d).gaveUp
  methods : s.methods = t.methods
  taken : s.events.map Event.taken = t.events.map Event.taken

theorem Alike.refl (s : Dispatch) : s.Alike s := ⟨fun _ => rfl, fun _ => rfl, rfl, rfl⟩

theorem Alike.symm (h : s.Alike t) : t.Alike s :=
  ⟨fun d => (h.buffer d).symm, fun d => (h.gaveUp d).symm, h.methods.symm, h.taken.symm⟩

theorem Alike.trans (h : s.Alike t) (h' : t.Alike u) : s.Alike u :=
  ⟨fun d => (h.buffer d).trans (h'.buffer d), fun d => (h.gaveUp d).trans (h'.gaveUp d),
    h.methods.trans h'.methods, h.taken.trans h'.taken⟩

/-! ### Reading keeps states alike -/

theorem Alike.giveUp (h : s.Alike t) (id id' : Nat) (d : Direction) (why : Reason) :
    (s.giveUp id d why).Alike (t.giveUp id' d why) where
  buffer := by
    intro e
    rw [pending_giveUp, pending_giveUp]
    split
    · rfl
    · exact h.buffer e
  gaveUp := by
    intro e
    rw [pending_giveUp, pending_giveUp]
    split
    · rfl
    · exact h.gaveUp e
  methods := by rw [methods_giveUp, methods_giveUp, h.methods]
  taken := by rw [events_giveUp, events_giveUp, h.taken]

theorem buffer_takeRequest (s : Dispatch) (id start n b : Nat) (m : Request) (d : Direction) :
    ((s.takeRequest id start n b m).pending d).buffer =
      (s.pending d).buffer.drop (if d = .clientToServer then n + b else 0) := by
  cases d <;> rfl

theorem gaveUp_takeRequest (s : Dispatch) (id start n b : Nat) (m : Request) (d : Direction) :
    ((s.takeRequest id start n b m).pending d).gaveUp = (s.pending d).gaveUp := by
  cases d <;> rfl

theorem buffer_takeResponse (s : Dispatch) (id start n b : Nat) (m : Response) (d : Direction) :
    ((s.takeResponse id start n b m).pending d).buffer =
      (s.pending d).buffer.drop (if d = .serverToClient then n + b else 0) := by
  cases d <;> rfl

theorem gaveUp_takeResponse (s : Dispatch) (id start n b : Nat) (m : Response) (d : Direction) :
    ((s.takeResponse id start n b m).pending d).gaveUp = (s.pending d).gaveUp := by
  cases d <;> rfl

/-- What was taken after a request: the request with the bytes at the front of the buffer. -/
theorem taken_takeRequest (s : Dispatch) (id start n b : Nat) (m : Request) :
    (s.takeRequest id start n b m).events.map Event.taken =
      s.events.map Event.taken ++
        [.inl ⟨(s.pending .clientToServer).buffer.take n,
          ((s.pending .clientToServer).buffer.drop n).take b, m⟩] :=
  List.map_append

theorem taken_takeResponse (s : Dispatch) (id start n b : Nat) (m : Response) :
    (s.takeResponse id start n b m).events.map Event.taken =
      s.events.map Event.taken ++
        [.inr ⟨(s.pending .serverToClient).buffer.take n,
          ((s.pending .serverToClient).buffer.drop n).take b, m⟩] :=
  List.map_append

theorem methods_takeRequest (s : Dispatch) (id start n b : Nat) (m : Request) :
    (s.takeRequest id start n b m).methods = s.methods ++ [m.method] := rfl

theorem methods_takeResponse (s : Dispatch) (id start n b : Nat) (m : Response) :
    (s.takeResponse id start n b m).methods =
      if 200 ≤ m.status then s.methods.drop 1 else s.methods := rfl

theorem Alike.takeRequest (h : s.Alike t) (id id' start start' n b : Nat) (m : Request) :
    (s.takeRequest id start n b m).Alike (t.takeRequest id' start' n b m) where
  buffer := fun d => by rw [buffer_takeRequest, buffer_takeRequest, h.buffer]
  gaveUp := fun d => by rw [gaveUp_takeRequest, gaveUp_takeRequest, h.gaveUp]
  methods := by rw [methods_takeRequest, methods_takeRequest, h.methods]
  taken := by rw [taken_takeRequest, taken_takeRequest, h.buffer, h.taken]

theorem Alike.takeResponse (h : s.Alike t) (id id' start start' n b : Nat) (m : Response) :
    (s.takeResponse id start n b m).Alike (t.takeResponse id' start' n b m) where
  buffer := fun d => by rw [buffer_takeResponse, buffer_takeResponse, h.buffer]
  gaveUp := fun d => by rw [gaveUp_takeResponse, gaveUp_takeResponse, h.gaveUp]
  methods := by rw [methods_takeResponse, methods_takeResponse, h.methods]
  taken := by rw [taken_takeResponse, taken_takeResponse, h.buffer, h.taken]

/-- **Reading one message** has the same outcome in states that are alike. -/
theorem Alike.next (h : s.Alike t) (id id' : Nat) (d : Direction) (atEnd : Bool)
    (start start' : Nat) :
    (s.next id d atEnd start).1.Alike (t.next id' d atEnd start').1 ∧
      (s.next id d atEnd start).2 = (t.next id' d atEnd start').2 := by
  cases d with
  | clientToServer =>
    have hb : s.client.buffer = t.client.buffer := h.buffer .clientToServer
    simp only [Dispatch.next, nextRequest, hb]
    split
    · exact ⟨h.takeRequest _ _ _ _ _ _ _, rfl⟩
    · refine ⟨?_, rfl⟩
      split
      · exact h.giveUp _ _ _ _
      · exact h
    · exact ⟨h.giveUp _ _ _ _, rfl⟩
  | serverToClient =>
    have hb : s.server.buffer = t.server.buffer := h.buffer .serverToClient
    simp only [Dispatch.next, nextResponse, hb, h.methods]
    split
    · split
      · exact ⟨((h.takeResponse _ _ _ _ _ _ _).giveUp _ _ _ _).giveUp _ _ _ _, rfl⟩
      · exact ⟨h.takeResponse _ _ _ _ _ _ _, rfl⟩
    · refine ⟨?_, rfl⟩
      split
      · exact h.giveUp _ _ _ _
      · exact h
    · exact ⟨h.giveUp _ _ _ _, rfl⟩

/-! ### One turn of a drain -/

/-- Is there something to read in a direction? -/
def IsReadable (s : Dispatch) (d : Direction) : Prop :=
  (s.pending d).gaveUp = false ∧ (s.pending d).buffer ≠ []

theorem Alike.isReadable (h : s.Alike t) : s.IsReadable d ↔ t.IsReadable d := by
  rw [IsReadable, IsReadable, h.gaveUp, h.buffer]

theorem drain_of_not_isReadable (id : Nat) (atEnd : Bool) (h : ¬ s.IsReadable d) :
    s.drain id d atEnd = s := by
  rw [IsReadable, not_and_not_right] at h
  rw [drain, dif_pos]
  cases hg : (s.pending d).gaveUp with
  | true => exact Or.inl rfl
  | false => exact Or.inr (h hg)

/-- A drain reads a message and, if there may be another, goes on. -/
theorem drain_of_isReadable (id : Nat) (atEnd : Bool) (hr : s.IsReadable d)
    (hs : (s.pending d).startChunk? = some start) :
    s.drain id d atEnd =
      if (s.next id d atEnd start).2 then (s.next id d atEnd start).1.drain id d atEnd
      else (s.next id d atEnd start).1 := by
  rw [drain, dif_neg (by simp [hr.1, hr.2]), hs]
  dsimp only
  split <;> (rename_i after hn; rw [hn]; rfl)

theorem IsCovered.exists_startChunk? (hc : s.IsCovered) (hr : s.IsReadable d) :
    ∃ start, (s.pending d).startChunk? = some start :=
  Option.ne_none_iff_exists'.mp ((hc d).startChunk?_ne_none hr.2)

theorem isCovered_drain (hc : s.IsCovered) (id : Nat) (d : Direction) (atEnd : Bool) :
    (s.drain id d atEnd).IsCovered :=
  holds_of_steps (fun hc hs => hs.isCovered hc) (drain_steps id d atEnd s) hc

/-- Reading one message where there is something to read. -/
theorem IsReadable.next_cases (hr : s.IsReadable d)
    (hs : (s.pending d).startChunk? = some start) (id : Nat) (atEnd : Bool) :
    (Step id atEnd s (s.next id d atEnd start).1 ∧ ((s.next id d atEnd start).2 = true ∨
        ((s.next id d atEnd start).1.pending d).gaveUp = true)) ∨
      ((s.next id d atEnd start).1 = s ∧ (s.next id d atEnd start).2 = false ∧ atEnd = false ∧
        s.Waits d) :=
  Dispatch.next_cases hr.1 hr.2 hs rfl

theorem isCovered_next (hc : s.IsCovered) (hr : s.IsReadable d)
    (hs : (s.pending d).startChunk? = some start) (id : Nat) (atEnd : Bool) :
    (s.next id d atEnd start).1.IsCovered := by
  rcases hr.next_cases hs id atEnd with ⟨hstep, -⟩ | ⟨hsame, -⟩
  · exact hstep.isCovered hc
  · rwa [hsame]

/-- **A drain has the same outcome in states that are alike.** -/
theorem Alike.drain (h : s.Alike t) (hs : s.IsCovered) (ht : t.IsCovered) (id id' : Nat)
    (d : Direction) (atEnd : Bool) : (s.drain id d atEnd).Alike (t.drain id' d atEnd) := by
  induction hn : (s.pending d).buffer.length using Nat.strong_induction_on generalizing s t with
  | _ n ih =>
    subst hn
    by_cases hr : s.IsReadable d
    · obtain ⟨start, hstart⟩ := hs.exists_startChunk? hr
      obtain ⟨start', hstart'⟩ := ht.exists_startChunk? (h.isReadable.mp hr)
      obtain ⟨halike, hmore⟩ := h.next id id' d atEnd start start'
      have hr' : t.IsReadable d := h.isReadable.mp hr
      rw [drain_of_isReadable id atEnd hr hstart, drain_of_isReadable id' atEnd hr' hstart',
        ← hmore]
      split
      · rename_i hgo
        exact ih _ (pending_lt_of_next (Prod.ext rfl hgo) hr.2) halike
          (isCovered_next hs hr hstart _ _) (isCovered_next ht hr' hstart' _ _) rfl
      · exact halike
    · rw [drain_of_not_isReadable id atEnd hr,
        drain_of_not_isReadable id' atEnd (mt h.isReadable.mpr hr)]
      exact h

/-! ### Chunks keep states alike -/

theorem part_congr {chunk chunk' : Chunk} (hd : chunk.direction = chunk'.direction)
    (hc : chunk.content = chunk'.content) (d : Direction) : chunk.part d = chunk'.part d := by
  rw [Chunk.part, Chunk.part, hd, hc]

theorem buffer_arrive_of_gaveUp (hg : (s.pending d).gaveUp = true) (index : Nat) (chunk : Chunk) :
    ((s.arrive index chunk).pending d).buffer = (s.pending d).buffer := by
  rw [Dispatch.arrive]
  split
  · rw [pending_leave]
  · rename_i hng
    rw [pending_setPending, if_neg]
    rintro rfl
    exact hng hg

theorem buffer_arrive (s : Dispatch) (index : Nat) (chunk : Chunk) (d : Direction) :
    ((s.arrive index chunk).pending d).buffer =
      if (s.pending d).gaveUp then (s.pending d).buffer
      else (s.pending d).buffer ++ chunk.part d := by
  split
  · exact buffer_arrive_of_gaveUp ‹_› _ _
  · exact (pending_arrive (Bool.not_eq_true _ ▸ ‹_›) _ _).1

/-- **The same bytes arrive** in states that are alike, though their chunks have other numbers. -/
theorem Alike.arrive (h : s.Alike t) {chunk chunk' : Chunk}
    (hd : chunk.direction = chunk'.direction) (hc : chunk.content = chunk'.content)
    (index index' : Nat) : (s.arrive index chunk).Alike (t.arrive index' chunk') where
  buffer := by
    intro d
    rw [buffer_arrive, buffer_arrive, h.gaveUp, h.buffer, part_congr hd hc]
  gaveUp := by
    intro d
    rw [gaveUp_arrive, gaveUp_arrive, h.gaveUp]
  methods := by rw [methods_arrive, methods_arrive, h.methods]
  taken := by rw [events_arrive, events_arrive, h.taken]

/-- A chunk that comes in two arrives as it would in one. -/
theorem alike_arrive_arrive {whole first second : Chunk} (hf : first.direction = whole.direction)
    (hs : second.direction = whole.direction)
    (hc : first.content ++ second.content = whole.content) (s : Dispatch) (i j k : Nat) :
    ((s.arrive i first).arrive j second).Alike (s.arrive k whole) where
  buffer := by
    intro d
    rw [buffer_arrive, buffer_arrive, buffer_arrive, gaveUp_arrive]
    split
    · rfl
    · rw [List.append_assoc, Chunk.part, Chunk.part, Chunk.part, hf, hs, ← hc]
      split <;> rfl
  gaveUp := by
    intro d
    rw [gaveUp_arrive, gaveUp_arrive, gaveUp_arrive]
  methods := by rw [methods_arrive, methods_arrive, methods_arrive]
  taken := by rw [events_arrive, events_arrive, events_arrive]

/-! ### Reading early -/

theorem alike_giveUp_arrive (s : Dispatch) (id : Nat) (d : Direction) (why : Reason) (index : Nat)
    (chunk : Chunk) :
    ((s.arrive index chunk).giveUp id d why).Alike ((s.giveUp id d why).arrive index chunk) where
  buffer := by
    intro e
    rw [pending_giveUp, buffer_arrive, pending_giveUp]
    split
    · rfl
    · exact buffer_arrive _ _ _ _
  gaveUp := by
    intro e
    rw [pending_giveUp, gaveUp_arrive, pending_giveUp]
    split
    · rfl
    · exact gaveUp_arrive _ _ _ _
  methods := by rw [methods_giveUp, methods_arrive, methods_arrive, methods_giveUp]
  taken := by rw [events_giveUp, events_arrive, events_arrive, events_giveUp]

/-- A request that is there is taken alike before and after more bytes arrive. -/
theorem alike_takeRequest_arrive {n b : Nat} (hg : (s.pending .clientToServer).gaveUp = false)
    (hle : n + b ≤ (s.pending .clientToServer).buffer.length) (id start start' : Nat) (m : Request)
    (index : Nat) (chunk : Chunk) :
    ((s.arrive index chunk).takeRequest id start n b m).Alike
      ((s.takeRequest id start' n b m).arrive index chunk) where
  buffer := by
    intro d
    rw [buffer_takeRequest, buffer_arrive, buffer_arrive, gaveUp_takeRequest, buffer_takeRequest]
    by_cases hd : d = .clientToServer
    · subst hd
      rw [if_pos rfl, if_neg (by simp [hg]), if_neg (by simp [hg]),
        List.drop_append_of_le_length hle]
    · rw [if_neg hd, List.drop_zero, List.drop_zero]
  gaveUp := fun d => by
    rw [gaveUp_takeRequest, gaveUp_arrive, gaveUp_arrive, gaveUp_takeRequest]
  methods := by
    rw [methods_takeRequest, methods_arrive, methods_arrive, methods_takeRequest]
  taken := by
    rw [taken_takeRequest, events_arrive, events_arrive, taken_takeRequest, buffer_arrive,
      if_neg (by simp [hg]), List.take_append_of_le_length (by omega),
      List.drop_append_of_le_length (by omega),
      List.take_append_of_le_length (by rw [List.length_drop]; omega)]

theorem alike_takeResponse_arrive {n b : Nat} (hg : (s.pending .serverToClient).gaveUp = false)
    (hle : n + b ≤ (s.pending .serverToClient).buffer.length) (id start start' : Nat)
    (m : Response) (index : Nat) (chunk : Chunk) :
    ((s.arrive index chunk).takeResponse id start n b m).Alike
      ((s.takeResponse id start' n b m).arrive index chunk) where
  buffer := by
    intro d
    rw [buffer_takeResponse, buffer_arrive, buffer_arrive, gaveUp_takeResponse, buffer_takeResponse]
    by_cases hd : d = .serverToClient
    · subst hd
      rw [if_pos rfl, if_neg (by simp [hg]), if_neg (by simp [hg]),
        List.drop_append_of_le_length hle]
    · rw [if_neg hd, List.drop_zero, List.drop_zero]
  gaveUp := fun d => by
    rw [gaveUp_takeResponse, gaveUp_arrive, gaveUp_arrive, gaveUp_takeResponse]
  methods := by
    rw [methods_takeResponse, methods_arrive, methods_arrive, methods_takeResponse]
  taken := by
    rw [taken_takeResponse, events_arrive, events_arrive, taken_takeResponse, buffer_arrive,
      if_neg (by simp [hg]), List.take_append_of_le_length (by omega),
      List.drop_append_of_le_length (by omega),
      List.take_append_of_le_length (by rw [List.length_drop]; omega)]

/-- **A message that does not wait** is read alike before and after more bytes arrive. -/
theorem next_arrive (hr : s.IsReadable d) (hw : ¬ s.Waits d) (id start start' index : Nat)
    (chunk : Chunk) :
    ((s.arrive index chunk).next id d false start).1.Alike
        ((s.next id d false start').1.arrive index chunk) ∧
      ((s.arrive index chunk).next id d false start).2 = (s.next id d false start').2 := by
  have hbuffer : ((s.arrive index chunk).pending d).buffer =
      (s.pending d).buffer ++ chunk.part d := (pending_arrive hr.1 index chunk).1
  cases d with
  | clientToServer =>
    have hsame : parseRequest false (s.arrive index chunk).client.buffer =
        parseRequest false s.client.buffer := by
      rw [show (s.arrive index chunk).client.buffer = _ from hbuffer]
      exact parseRequest_append hw false _
    simp only [Dispatch.next, nextRequest, hsame]
    split
    · rename_i hp
      exact ⟨alike_takeRequest_arrive hr.1 (length_le_of_parseRequest hp) _ _ _ _ _ _, rfl⟩
    · rename_i hp
      exact absurd hp hw
    · exact ⟨alike_giveUp_arrive _ _ _ _ _ _, rfl⟩
  | serverToClient =>
    have hsame : parseResponse false (s.arrive index chunk).methods.head?
        (s.arrive index chunk).server.buffer =
          parseResponse false s.methods.head? s.server.buffer := by
      rw [show (s.arrive index chunk).server.buffer = _ from hbuffer, methods_arrive]
      exact parseResponse_append hw false _
    simp only [Dispatch.next, nextResponse, hsame]
    split
    · rename_i hp
      have htake := alike_takeResponse_arrive hr.1 (length_le_of_parseResponse hp) id start start'
      split
      · refine ⟨?_, rfl⟩
        exact (((htake _ index chunk).giveUp id id _ _).trans (alike_giveUp_arrive _ _ _ _ _ _)
          |>.giveUp id id _ _).trans (alike_giveUp_arrive _ _ _ _ _ _)
      · exact ⟨htake _ _ _, rfl⟩
    · rename_i hp
      exact absurd hp hw
    · exact ⟨alike_giveUp_arrive _ _ _ _ _ _, rfl⟩

/-- Where something waits, reading changes nothing. -/
theorem next_of_waits (hw : s.Waits d) (id start : Nat) :
    s.next id d false start = (s, false) := by
  cases d with
  | clientToServer =>
    rw [Waits] at hw
    simp [Dispatch.next, nextRequest, hw]
  | serverToClient =>
    rw [Waits] at hw
    simp [Dispatch.next, nextResponse, hw]

theorem gaveUp_of_next_false (hr : s.IsReadable d) (hs : (s.pending d).startChunk? = some start)
    (hw : ¬ s.Waits d) {id : Nat} (hn : (s.next id d false start).2 = false) :
    ((s.next id d false start).1.pending d).gaveUp = true := by
  rcases hr.next_cases hs id false with ⟨-, hmore⟩ | ⟨-, -, -, hw'⟩
  · exact hmore.resolve_left (by rw [hn]; decide)
  · exact absurd hw' hw

/-- **Reading early does no harm**: to read what is there before a chunk arrives, and then the
rest, is alike to reading when the chunk has arrived. -/
theorem alike_drain_arrive (hc : s.IsCovered) (id index index' : Nat) (chunk : Chunk) :
    (((s.drain id d false).arrive index chunk).drain id d false).Alike
      ((s.arrive index' chunk).drain id d false) := by
  induction hn : (s.pending d).buffer.length using Nat.strong_induction_on generalizing s with
  | _ n ih =>
    subst hn
    have hnow : ∀ {t : Dispatch}, t.IsCovered → t.Alike s →
        ((t.arrive index chunk).drain id d false).Alike
          ((s.arrive index' chunk).drain id d false) := fun ht h =>
      (h.arrive rfl rfl _ _).drain (isCovered_arrive ht _ _) (isCovered_arrive hc _ _) _ _ _ _
    by_cases hr : s.IsReadable d
    · obtain ⟨start, hstart⟩ := hc.exists_startChunk? hr
      by_cases hw : s.Waits d
      · rw [drain_of_isReadable id false hr hstart, next_of_waits hw]
        exact hnow hc (Alike.refl s)
      · -- The same message is read when the chunk has arrived, and then the argument repeats.
        have hcov := isCovered_arrive hc index' chunk
        have hr' : (s.arrive index' chunk).IsReadable d := by
          refine ⟨by rw [gaveUp_arrive, hr.1], ?_⟩
          rw [(pending_arrive hr.1 index' chunk).1]
          exact List.append_ne_nil_of_left_ne_nil hr.2 _
        obtain ⟨start', hstart'⟩ := hcov.exists_startChunk? hr'
        obtain ⟨halike, hmore⟩ := next_arrive hr hw id start' start index' chunk
        rw [drain_of_isReadable id false hr hstart, drain_of_isReadable id false hr' hstart', hmore]
        have hnext := isCovered_next hc hr hstart id false
        split
        · rename_i hgo
          refine (ih _ (pending_lt_of_next (Prod.ext rfl hgo) hr.2) hnext rfl).trans ?_
          exact halike.symm.drain (isCovered_arrive hnext _ _)
            (isCovered_next hcov hr' hstart' _ _) _ _ _ _
        · rename_i hstop
          have hg := gaveUp_of_next_false hr hstart hw (Bool.not_eq_true _ ▸ hstop)
          rw [drain_of_not_isReadable id false]
          · exact ((Alike.refl _).arrive rfl rfl _ _).trans halike.symm
          · intro hread
            rw [IsReadable, gaveUp_arrive, hg] at hread
            cases hread.1
    · rw [drain_of_not_isReadable id false hr]
      exact hnow hc (Alike.refl s)

/-! ### Whole runs -/

/-- **Chunks are taken alike**, and go on to be, in states that are alike. -/
theorem Alike.feedFrom (h : s.Alike t) (hs : s.IsCovered) (ht : t.IsCovered) (id id' : Nat)
    (index index' : Nat) (chunks : List Chunk) :
    (s.feedFrom id index chunks).Alike (t.feedFrom id' index' chunks) ∧
      (s.feedFrom id index chunks).IsCovered ∧ (t.feedFrom id' index' chunks).IsCovered := by
  induction chunks generalizing s t index index' with
  | nil => exact ⟨h, hs, ht⟩
  | cons chunk chunks ih =>
    have hs' := isCovered_arrive hs index chunk
    have ht' := isCovered_arrive ht index' chunk
    rw [Dispatch.feedFrom, Dispatch.feedFrom, feed_eq, feed_eq]
    exact ih ((h.arrive rfl rfl _ _).drain hs' ht' _ _ _ _) (isCovered_drain hs' _ _ _)
      (isCovered_drain ht' _ _ _) _ _

/-- **A chunk that comes in two** is taken as it would be in one. -/
theorem Alike.feed_feed {whole first second : Chunk} (h : s.Alike t) (hs : s.IsCovered)
    (ht : t.IsCovered) (hf : first.direction = whole.direction)
    (hd : second.direction = whole.direction)
    (hc : first.content ++ second.content = whole.content) (id id' i j k : Nat) :
    ((s.feed id i first).feed id j second).Alike (t.feed id' k whole) := by
  have hs' := isCovered_arrive (isCovered_arrive hs i first) j second
  rw [feed_eq, feed_eq, feed_eq, hf, hd]
  refine (alike_drain_arrive (isCovered_arrive hs i first) id j j second).trans ?_
  refine Alike.drain ?_ hs' (isCovered_arrive ht _ _) _ _ _ _
  exact (alike_arrive_arrive hf hd hc s i j k).trans (h.arrive rfl rfl _ _)

theorem isCovered_feed (hs : s.IsCovered) (id index : Nat) (chunk : Chunk) :
    (s.feed id index chunk).IsCovered := by
  rw [feed_eq]
  exact isCovered_drain (isCovered_arrive hs _ _) _ _ _

theorem Alike.feedFrom_cut {chunks chunks' : List Chunk} (h : s.Alike t) (hs : s.IsCovered)
    (ht : t.IsCovered) (hcut : Chunk.CutOnce chunks chunks') (id id' index index' : Nat) :
    (s.feedFrom id index chunks').Alike (t.feedFrom id' index' chunks) ∧
      (s.feedFrom id index chunks').IsCovered ∧ (t.feedFrom id' index' chunks).IsCovered := by
  obtain ⟨before, after, hf, hd, hc⟩ := hcut
  obtain ⟨hbefore, hs', ht'⟩ := h.feedFrom hs ht id id' index index' before
  rw [feedFrom_append, feedFrom_append, Dispatch.feedFrom, Dispatch.feedFrom, Dispatch.feedFrom]
  exact (hbefore.feed_feed hs' ht' hf hd hc id id' _ _ _).feedFrom
    (isCovered_feed (isCovered_feed hs' _ _ _) _ _ _) (isCovered_feed ht' _ _ _) _ _ _ _ _

end Dispatch

variable {whole cut stream : Stream} {n : Nat} {s s' : Dispatch}

theorem alike_opening (stream stream' : Stream) : (opening stream).Alike (opening stream') where
  buffer := by rintro (_ | _) <;> rfl
  gaveUp := by rintro (_ | _) <;> rfl
  methods := rfl
  taken := rfl

/-- **A chunk that is cut in two** leaves the last states of the two runs alike. -/
theorem alike_dispatch (h : Chunk.CutOnce whole.chunks cut.chunks) :
    (dispatch cut).Alike (dispatch whole) := by
  obtain ⟨halike, hs, ht⟩ := (alike_opening cut whole).feedFrom_cut Reached.opening.isCovered
    Reached.opening.isCovered h cut.metadata.id whole.metadata.id 0 0
  exact (halike.drain hs ht _ _ .clientToServer true).drain (isCovered_drain hs _ _ _)
    (isCovered_drain ht _ _ _) _ _ .serverToClient true

/-! ### Where messages start -/

theorem take_ne_nil {bytes : Bytes} {n : Nat} (hb : bytes ≠ []) (hn : 0 < n) :
    bytes.take n ≠ [] := by
  rw [Ne, List.take_eq_nil_iff, not_or]
  exact ⟨Nat.ne_of_gt hn, hb⟩

theorem Dispatch.Step.head_ne_nil {id : Nat} {atEnd : Bool} (hs : s.Step id atEnd s')
    (h : ∀ event ∈ s.events, event.head ≠ []) : ∀ event ∈ s'.events, event.head ≠ [] := by
  have hlast : ∀ {last : Event}, last.head ≠ [] →
      ∀ event ∈ s.events ++ [last], event.head ≠ [] := fun hlast =>
    List.forall_mem_append.mpr ⟨h, List.forall_mem_singleton.mpr hlast⟩
  cases hs with
  | request hg hb hst hp =>
    exact hlast (take_ne_nil hb (takesByte_parseRequest _ _ _ _ _ hp hb))
  | response hg hb hst hp hm =>
    exact hlast (take_ne_nil hb (takesByte_parseResponse _ _ _ _ _ _ hp hb))
  | switch hg hb hst hp hm =>
    rw [events_giveUp, events_giveUp]
    exact hlast (take_ne_nil hb (takesByte_parseResponse _ _ _ _ _ _ hp hb))
  | badRequest => rwa [events_giveUp]
  | badResponse => rwa [events_giveUp]

/-- Every message has a head. -/
theorem Reached.head_ne_nil (h : Reached stream n s) : ∀ event ∈ s.events, event.head ≠ [] := by
  induction h with
  | opening => exact List.forall_mem_nil _
  | arrive _ _ ih => rwa [events_arrive]
  | step _ _ hstep ih => exact hstep.head_ne_nil ih

/-- **A message starts in a chunk** of its direction: the chunk holds the first byte of its head,
which stands behind what the earlier messages of the direction took. -/
structure Event.StartsIn (stream : Stream) (before : List Event) (event : Event) (chunk : Chunk) :
    Prop where
  chunk_at : stream.chunks[event.start]? = some chunk
  direction : chunk.direction = event.direction
  head_ne_nil : event.head ≠ []
  head_at : event.head <+:
    (stream.bytes event.direction).drop (wireOf event.direction before).length
  le_first : (stream.bytesBefore event.direction event.start).length ≤
    (wireOf event.direction before).length
  first_lt : (wireOf event.direction before).length <
    (stream.bytesBefore event.direction (event.start + 1)).length

/-- What the messages of a direction took stands in order at its front. -/
theorem wire_prefix_drop {before after : List Event} {event : Event}
    (h : (dispatch stream).events = before ++ event :: after) :
    event.wire <+: (stream.bytes event.direction).drop (wireOf event.direction before).length := by
  have htaken := (reached_dispatch stream).ledger.taken event.direction
  rw [Stream.bytesBefore_of_length_le (Nat.le_refl _), h, wireOf_append,
    ← List.singleton_append, wireOf_append, wireOf_singleton, if_pos rfl] at htaken
  obtain ⟨rest, hrest⟩ := htaken
  rw [← hrest, List.append_assoc, List.drop_left, List.append_assoc]
  exact List.prefix_append _ _

/-- **Every call is made with the chunk that the message starts in.** -/
theorem startsIn_of_calls {before after : List (Chunk × Event)} {call : Chunk × Event}
    (h : calls stream.chunks (dispatch stream).events = before ++ call :: after) :
    call.2.StartsIn stream (before.map (·.2)) call.1 := by
  have hr := reached_dispatch stream
  have hevents : (dispatch stream).events =
      before.map (·.2) ++ call.2 :: after.map (·.2) := by
    rw [← map_snd_calls fun event he => hr.start_lt he, h, List.map_append, List.map_cons]
  have hat := chunk_of_mem_calls (h ▸ List.mem_append_right before List.mem_cons_self)
  obtain ⟨-, chunk, hchunk, hd, hle, hlt⟩ :=
    Stream.getElem?_originsBefore.mp (hr.origin_of_event hevents)
  obtain rfl : call.1 = chunk := Option.some.inj (hat.symm.trans hchunk)
  refine ⟨hchunk, hd, ?_, ?_, hle, hlt⟩
  · refine hr.head_ne_nil _ ?_
    rw [hevents]
    exact List.mem_append_right _ List.mem_cons_self
  · exact call.2.head_prefix_wire.trans (wire_prefix_drop hevents)

theorem taken_calls (stream : Stream) :
    (calls stream.chunks (dispatch stream).events).map (fun call => call.2.taken) =
      (dispatch stream).events.map Event.taken := by
  have hcalls : (calls stream.chunks (dispatch stream).events).map (·.2) =
      (dispatch stream).events :=
    map_snd_calls fun event he => (reached_dispatch stream).start_lt he
  conv_rhs => rw [← hcalls, List.map_map]
  rfl

/-- **Cuts leave no trace in the messages.** Let one stream be as another, except that one of its
chunks stands there as two of the same direction, either of which may be empty. Then the two runs
make the same calls, in the same order, with the same heads, bodies and messages, whatever the
streams hold: bytes that are no HTTP, a switch of protocols, or an end in the middle of a message.
In both runs each call is made with the chunk of the first byte of the head. -/
theorem dispatch_cut (h : Chunk.CutOnce whole.chunks cut.chunks) :
    let callsOf := fun stream : Stream => calls stream.chunks (dispatch stream).events
    (callsOf cut).map (fun call => call.2.taken) = (callsOf whole).map (fun call => call.2.taken) ∧
    ∀ stream ∈ [whole, cut], ∀ before call after, callsOf stream = before ++ call :: after →
      call.2.StartsIn stream (before.map (·.2)) call.1 := by
  refine ⟨?_, fun stream _ before call after hsplit => startsIn_of_calls hsplit⟩
  rw [taken_calls, taken_calls, (alike_dispatch h).taken]

/-- A switch of protocols while the head of a second request is on its way. -/
def switching (answers : List Bytes) : Stream where
  metadata := { id := 1, serverHost := "192.0.2.1", serverPort := 80 }
  chunks :=
    ⟨.clientToServer, Bytes.ascii "GET /chat HTTP/1.1\r\n\r\nGET /ne", ⟨0, 0⟩⟩ ::
      answers.map (⟨.serverToClient, ·, ⟨1, 0⟩⟩)

theorem dispatch_cut_switching :
    let whole := switching [Bytes.ascii "HTTP/1.1 101 Switching\r\n\r\nraw"]
    let cut := switching [Bytes.ascii "HTTP/1.1 10", Bytes.ascii "1 Switching\r\n\r\nraw"]
    Chunk.CutOnce whole.chunks cut.chunks ∧
      (calls cut.chunks (dispatch cut).events).map (fun call => call.2.taken) =
        (calls whole.chunks (dispatch whole).events).map (fun call => call.2.taken) ∧
      (dispatch cut).events.map Event.start = [0, 1] ∧
      (dispatch cut).leftOver = [0, 2] ∧ (dispatch whole).leftOver = [0, 1] := by
  intro whole cut
  have h : Chunk.CutOnce whole.chunks cut.chunks :=
    .intro [⟨.clientToServer, _, _⟩] [] rfl rfl (by decide)
  exact ⟨h, (dispatch_cut h).1, by decide +kernel, by decide +kernel, by decide +kernel⟩

end HttpReplay.Http
