import HttpReplay.Proofs.Dispatch.Steps

/-!
# Every byte is accounted for

The bytes of a direction that have arrived are either in a message that was taken, or pending, or
in a chunk that is left over. The ledger of a state (`HttpReplay.Http.Ledger`) says so exactly:
while a direction goes on, what its messages took and what is pending make up all that has
arrived; once it has been given up, the chunks left over are those that reach beyond what its
messages took, and the empty ones that arrived later.

* `HttpReplay.Http.Reached.ledger` says that every state of a run has its ledger right;
* `HttpReplay.Http.Reached.origin_of_event` says that a message starts in the chunk of its first
  byte;
* `HttpReplay.Http.dispatch_accounts` is the whole account of a run with a handler.
-/

namespace HttpReplay.Http

open HttpReplay.Http.Span Dispatch

namespace Event

@[simp] theorem wireOf_nil (d : Direction) : wireOf d [] = [] := rfl

theorem wireOf_append (d : Direction) (before after : List Event) :
    wireOf d (before ++ after) = wireOf d before ++ wireOf d after := by
  simp [wireOf]

theorem wireOf_singleton (d : Direction) (event : Event) :
    wireOf d [event] = if event.direction = d then event.wire else [] := by
  by_cases h : event.direction = d <;> simp [wireOf, h]

theorem wireOf_snoc_self (events : List Event) (event : Event) :
    wireOf event.direction (events ++ [event]) =
      wireOf event.direction events ++ event.wire := by
  rw [wireOf_append, wireOf_singleton, if_pos rfl]

theorem wireOf_snoc_of_ne {d : Direction} {event : Event} (h : event.direction ≠ d)
    (events : List Event) : wireOf d (events ++ [event]) = wireOf d events := by
  rw [wireOf_append, wireOf_singleton, if_neg h, List.append_nil]

end Event

open Event

variable {stream : Stream} {n : Nat} {s s' : Dispatch}

/-! ### The ledger -/

/-- **A chunk that is left over** once its direction has been given up: it has a byte that no
message took, or it is empty and arrived later. -/
def IsLeft (stream : Stream) (s : Dispatch) (i : Nat) (chunk : Chunk) : Prop :=
  (s.pending chunk.direction).gaveUp = true ∧
    if chunk.content = [] then ((stage stream i).pending chunk.direction).gaveUp = true
    else (wireOf chunk.direction s.events).length <
      (stream.bytesBefore chunk.direction (i + 1)).length

/-- **The ledger of a state** in which so many chunks have been taken. -/
structure Ledger (stream : Stream) (n : Nat) (s : Dispatch) : Prop where
  /-- While a direction goes on, its bytes are those of its messages and those pending. -/
  going : ∀ d, (s.pending d).gaveUp = false →
    wireOf d s.events ++ (s.pending d).buffer = stream.bytesBefore d n
  /-- The spans know the chunk of each pending byte. -/
  origins : ∀ d, (s.pending d).gaveUp = false →
    Span.origins (s.pending d).spans =
      (stream.originsBefore d n).drop (wireOf d s.events).length
  /-- Once a direction has been given up, nothing is pending. -/
  stopped : ∀ d, (s.pending d).gaveUp = true → (s.pending d) = Pending.giveUp {}
  /-- What messages took, they took in order from the start. -/
  taken : ∀ d, wireOf d s.events <+: stream.bytesBefore d n
  /-- A direction that has been given up stays so. -/
  earlier : ∀ i < n, ∀ d, ((stage stream i).pending d).gaveUp = true → (s.pending d).gaveUp = true
  ascending : s.leftOver.Pairwise (· < ·)
  left : ∀ i, i ∈ s.leftOver ↔
    i < n ∧ ∃ chunk, stream.chunks[i]? = some chunk ∧ IsLeft stream s i chunk

/-! ### The opening -/

theorem ledger_opening (stream : Stream) : Ledger stream 0 (opening stream) where
  going := by rintro (_ | _) - <;> simp [opening, pending]
  origins := by rintro (_ | _) - <;> simp [opening, pending]
  stopped := by rintro (_ | _) h <;> cases h
  taken := by
    intro d
    rw [Stream.bytesBefore_zero]
    exact List.prefix_rfl
  earlier := fun i hi => absurd hi (Nat.not_lt_zero i)
  ascending := List.Pairwise.nil
  left := by
    intro i
    simp [opening]

/-! ### Chunks that arrive -/

theorem gaveUp_arrive (s : Dispatch) (index : Nat) (chunk : Chunk) (d : Direction) :
    ((s.arrive index chunk).pending d).gaveUp = (s.pending d).gaveUp := by
  rw [arrive]
  split
  · rw [pending_leave]
  · rw [pending_setPending]
    split
    · rename_i hd
      rw [hd]
      rfl
    · rfl

theorem events_arrive (s : Dispatch) (index : Nat) (chunk : Chunk) :
    (s.arrive index chunk).events = s.events := by
  rw [arrive]
  split
  · rfl
  · exact events_setPending _ _ _

theorem methods_arrive (s : Dispatch) (index : Nat) (chunk : Chunk) :
    (s.arrive index chunk).methods = s.methods := by
  rw [arrive]
  split
  · rfl
  · exact methods_setPending _ _ _

/-- What is pending in a direction that goes on, whichever way the chunk goes. -/
theorem pending_arrive {d : Direction} (hg : (s.pending d).gaveUp = false) (index : Nat)
    (chunk : Chunk) :
    ((s.arrive index chunk).pending d).buffer = (s.pending d).buffer ++ chunk.part d ∧
      Span.origins ((s.arrive index chunk).pending d).spans =
        Span.origins (s.pending d).spans ++ List.replicate (chunk.part d).length index := by
  rw [Dispatch.arrive]
  by_cases hd : chunk.direction = d
  · subst hd
    rw [if_neg (by simp [hg]), pending_setPending, if_pos rfl, Chunk.part_of_eq rfl]
    exact ⟨rfl, Pending.origins_push _ _ _⟩
  · rw [Chunk.part_of_ne hd]
    split
    · simp
    · simp [Ne.symm hd]

theorem isLeft_arrive {index i : Nat} {arriving chunk : Chunk} :
    IsLeft stream (s.arrive index arriving) i chunk ↔ IsLeft stream s i chunk := by
  rw [IsLeft, IsLeft, gaveUp_arrive, events_arrive]

/-- The chunk that arrives in a direction that was given up is left over. -/
theorem isLeft_self {chunk : Chunk} (hl : Ledger stream n (stage stream n))
    (hc : stream.chunks[n]? = some chunk) :
    IsLeft stream (stage stream n) n chunk ↔
      ((stage stream n).pending chunk.direction).gaveUp = true := by
  rw [IsLeft]
  refine and_iff_left_of_imp fun hg => ?_
  split
  · exact hg
  · rename_i hne
    have hpos := List.length_pos_iff.mpr hne
    have hle := (hl.taken chunk.direction).length_le
    rw [Stream.bytesBefore_succ hc, Chunk.part_of_eq rfl, List.length_append]
    omega

theorem Ledger.arrive {chunk : Chunk} (hl : Ledger stream n (stage stream n))
    (hc : stream.chunks[n]? = some chunk) :
    Ledger stream (n + 1) ((stage stream n).arrive n chunk) where
  going := by
    intro d hg
    rw [gaveUp_arrive] at hg
    rw [events_arrive, (pending_arrive hg n chunk).1, ← List.append_assoc, hl.going d hg,
      Stream.bytesBefore_succ hc]
  origins := by
    intro d hg
    rw [gaveUp_arrive] at hg
    have hle : (wireOf d (stage stream n).events).length ≤ (stream.originsBefore d n).length := by
      rw [Stream.length_originsBefore]
      exact (hl.taken d).length_le
    rw [events_arrive, (pending_arrive hg n chunk).2, hl.origins d hg, Stream.originsBefore_succ hc,
      List.drop_append_of_le_length hle]
  stopped := by
    intro d hg
    rw [gaveUp_arrive] at hg
    rw [← hl.stopped d hg, Dispatch.arrive]
    split
    · exact pending_leave _ _ _
    · rename_i hng
      rw [pending_setPending, if_neg]
      rintro rfl
      exact hng hg
  taken := by
    intro d
    rw [events_arrive]
    exact (hl.taken d).trans (Stream.bytesBefore_mono (Nat.le_succ n))
  earlier := by
    intro i hi d hg
    rw [gaveUp_arrive]
    rcases Nat.lt_succ_iff_lt_or_eq.mp hi with hi | rfl
    · exact hl.earlier i hi d hg
    · exact hg
  ascending := by
    rw [Dispatch.arrive]
    split
    · exact pairwise_leave hl.ascending _
    · simpa using hl.ascending
  left := by
    intro i
    -- Only the chunk itself can be new among those left over.
    have hmem : i ∈ ((stage stream n).arrive n chunk).leftOver ↔ i ∈ (stage stream n).leftOver ∨
        i = n ∧ ((stage stream n).pending chunk.direction).gaveUp = true := by
      rw [Dispatch.arrive]
      split
      · rename_i hg
        simp [hg]
      · rename_i hg
        simp [hg]
    rw [hmem, hl.left]
    simp only [isLeft_arrive]
    constructor
    · rintro (⟨hi, h⟩ | ⟨rfl, hg⟩)
      · exact ⟨Nat.lt_succ_of_lt hi, h⟩
      · exact ⟨Nat.lt_succ_self i, chunk, hc, (isLeft_self hl hc).mpr hg⟩
    · rintro ⟨hi, chunk', hc', h⟩
      rcases Nat.lt_succ_iff_lt_or_eq.mp hi with hi | rfl
      · exact Or.inl ⟨hi, chunk', hc', h⟩
      · rw [hc] at hc'
        cases hc'
        exact Or.inr ⟨rfl, (isLeft_self hl hc).mp h⟩

/-! ### Messages that are taken -/

theorem Dispatch.Takes.gaveUp {event : Event} (ht : s.Takes event s') (d : Direction) :
    (s'.pending d).gaveUp = (s.pending d).gaveUp := by
  rw [ht.pending]
  split
  · rename_i hd
    rw [hd]
    rfl
  · rfl

theorem Dispatch.Takes.wireOf_of_gaveUp {event : Event} (ht : s.Takes event s') {d : Direction}
    (hg : (s.pending d).gaveUp = true) : wireOf d s'.events = wireOf d s.events := by
  rw [ht.events, wireOf_snoc_of_ne]
  rintro rfl
  rw [ht.going] at hg
  cases hg

/-- What is taken leaves the buffer for the events, so the two still make up all that has come. -/
theorem Ledger.going_takes {event : Event} (hl : Ledger stream n s) (ht : s.Takes event s')
    (d : Direction) (hg : (s'.pending d).gaveUp = false) :
    wireOf d s'.events ++ (s'.pending d).buffer = stream.bytesBefore d n := by
  rw [ht.gaveUp] at hg
  rw [← hl.going d hg, ht.events, ht.pending]
  split
  · rename_i hd
    subst hd
    obtain ⟨rest, hrest⟩ := ht.front
    rw [wireOf_snoc_self, ← hrest, Pending.consume, List.append_assoc]
    simp only [← hrest, List.drop_left]
  · rename_i hd
    rw [wireOf_snoc_of_ne (Ne.symm hd)]

theorem Ledger.takes {event : Event} (hl : Ledger stream n s) (ht : s.Takes event s') :
    Ledger stream n s' where
  going := hl.going_takes ht
  origins := by
    intro d hg
    rw [ht.gaveUp] at hg
    rw [ht.events, ht.pending]
    split
    · rename_i hd
      subst hd
      rw [wireOf_snoc_self, Pending.consume, Pending.origins_consumeSpans, hl.origins _ hg,
        List.drop_drop, List.length_append]
    · rename_i hd
      rw [wireOf_snoc_of_ne (Ne.symm hd), hl.origins d hg]
  stopped := by
    intro d hg
    rw [ht.gaveUp] at hg
    rw [ht.pending, if_neg, hl.stopped d hg]
    rintro rfl
    rw [ht.going] at hg
    cases hg
  taken := by
    intro d
    cases hg : (s.pending d).gaveUp with
    | true =>
      rw [ht.wireOf_of_gaveUp hg]
      exact hl.taken d
    | false => exact ⟨_, hl.going_takes ht d (by rw [ht.gaveUp, hg])⟩
  earlier := by
    intro i hi d hg
    rw [ht.gaveUp]
    exact hl.earlier i hi d hg
  ascending := ht.leftOver ▸ hl.ascending
  left := by
    intro i
    -- A chunk is left over only of a direction that was given up, and such a one takes nothing.
    rw [ht.leftOver, hl.left]
    refine and_congr_right fun _ => exists_congr fun chunk => and_congr_right fun _ => ?_
    rw [IsLeft, IsLeft, ht.gaveUp]
    refine and_congr_right fun hg => ?_
    rw [ht.wireOf_of_gaveUp hg]

/-! ### Directions that are given up -/

theorem gaveUp_giveUp (s : Dispatch) (id : Nat) (d e : Direction) (why : Reason) :
    ((s.giveUp id d why).pending e).gaveUp = true ↔ e = d ∨ (s.pending e).gaveUp = true := by
  rw [pending_giveUp]
  split
  · rename_i he
    simp [he, Pending.giveUp]
  · rename_i he
    simp [he]

/-- Of a direction that is given up, the chunks with pending bytes are left over. -/
theorem mem_chunksLeft_iff {d : Direction} {i : Nat} (hl : Ledger stream n s)
    (hg : (s.pending d).gaveUp = false) :
    i ∈ (s.pending d).chunksLeft ↔ i < n ∧ ∃ chunk, stream.chunks[i]? = some chunk ∧
      chunk.direction = d ∧ chunk.content ≠ [] ∧
      (wireOf d s.events).length < (stream.bytesBefore d (i + 1)).length := by
  rw [Pending.mem_chunksLeft, hl.origins d hg, Stream.mem_drop_originsBefore]

/-- A direction that still goes on is not the one that was given up, so nothing of it changed. -/
theorem pending_of_giveUp {d e : Direction} {id : Nat} {why : Reason}
    (hg : ((s.giveUp id d why).pending e).gaveUp = false) :
    (s.giveUp id d why).pending e = s.pending e ∧ (s.pending e).gaveUp = false := by
  rw [← Bool.not_eq_true, gaveUp_giveUp, not_or] at hg
  exact ⟨by rw [pending_giveUp, if_neg hg.1], Bool.not_eq_true _ ▸ hg.2⟩

theorem Ledger.giveUp (hl : Ledger stream n s) (id : Nat) (d : Direction) (why : Reason) :
    Ledger stream n (s.giveUp id d why) where
  going := by
    intro e hg
    obtain ⟨hsame, hg⟩ := pending_of_giveUp hg
    rw [events_giveUp, hsame, hl.going e hg]
  origins := by
    intro e hg
    obtain ⟨hsame, hg⟩ := pending_of_giveUp hg
    rw [events_giveUp, hsame, hl.origins e hg]
  stopped := by
    intro e hg
    rw [pending_giveUp]
    split
    · rfl
    · rename_i he
      rw [pending_giveUp, if_neg he] at hg
      exact hl.stopped e hg
  taken := by
    intro e
    rw [events_giveUp]
    exact hl.taken e
  earlier := by
    intro i hi e hg
    exact (gaveUp_giveUp _ _ _ _ _).mpr (Or.inr (hl.earlier i hi e hg))
  ascending := pairwise_giveUp hl.ascending _ _ _
  left := by
    intro i
    rw [mem_leftOver_giveUp, hl.left]
    cases hg : (s.pending d).gaveUp with
    | true =>
      -- It had been given up before, and nothing is pending.
      have hsame : ∀ chunk,
          IsLeft stream (s.giveUp id d why) i chunk ↔ IsLeft stream s i chunk := by
        intro chunk
        rw [IsLeft, IsLeft, gaveUp_giveUp, events_giveUp]
        refine and_congr_left fun _ => or_iff_right_of_imp ?_
        intro hd
        rw [hd, hg]
      have hnone : i ∉ (s.pending d).chunksLeft := by
        rw [hl.stopped d hg]
        exact List.not_mem_nil
      simp only [hsame, hnone, or_false]
    | false =>
      -- A chunk of the direction is left over where bytes of it are pending; one without bytes is
      -- not, as the direction went on when it came.
      rw [mem_chunksLeft_iff hl hg]
      rw [← and_or_left]
      refine and_congr_right fun hi => ?_
      rw [← exists_or]
      refine exists_congr fun chunk => ?_
      rw [← and_or_left]
      refine and_congr_right fun hc => ?_
      rw [IsLeft, IsLeft, gaveUp_giveUp, events_giveUp]
      by_cases hd : chunk.direction = d
      · subst hd
        by_cases he : chunk.content = []
        · have hng : ¬ ((stage stream i).pending chunk.direction).gaveUp = true := by
            intro hs
            rw [hl.earlier i hi _ hs] at hg
            cases hg
          simp [he, hng]
        · simp [he, hg]
      · simp [hd]

/-! ### All states of a run -/

theorem Dispatch.Step.gaveUp_mono {id : Nat} {atEnd : Bool} (hs : s.Step id atEnd s')
    {d : Direction} (hg : (s.pending d).gaveUp = true) : (s'.pending d).gaveUp = true :=
  hs.keeps (P := fun s => (s.pending d).gaveUp = true) (fun hg ht => (ht.gaveUp d).trans hg)
    (fun hg _ _ => (gaveUp_giveUp _ _ _ _ _).mpr (Or.inr hg)) hg

/-- **Every state of a run has its ledger right.** -/
theorem Reached.ledger (h : Reached stream n s) : Ledger stream n s := by
  induction h with
  | opening => exact ledger_opening stream
  | arrive _ hc ih => exact ih.arrive hc
  | step _ _ hstep ih =>
    exact hstep.keeps (fun h ht => h.takes ht) (fun h d why => h.giveUp _ d why) ih

/-! ### Where messages start -/

/-- A message that is taken starts in the chunk of its first byte. -/
theorem Ledger.origin_of_takes {event : Event} (hl : Ledger stream n s)
    (ht : s.Takes event s') :
    (stream.originsBefore event.direction n)[(wireOf event.direction s.events).length]? =
      some event.start := by
  have horigins := hl.origins _ ht.going
  have hgoing := congrArg List.length (hl.going _ ht.going)
  have hpos : 0 < event.wire.length := List.length_pos_iff.mpr ht.wire_ne_nil
  have hle := ht.front.length_le
  rw [List.length_append, ← Stream.length_originsBefore] at hgoing
  have hne : Span.origins (s.pending event.direction).spans ≠ [] := by
    rw [← List.length_pos_iff, horigins, List.length_drop]
    omega
  rw [← List.head?_drop, ← horigins, ← Pending.startChunk?_eq_head? hne, ht.start]

theorem Dispatch.Step.events_cases {id : Nat} {atEnd : Bool} (hs : s.Step id atEnd s') :
    s'.events = s.events ∨ ∃ event t, s.Takes event t ∧ s'.events = t.events := by
  cases hs with
  | request hg hb hst hp => exact Or.inr ⟨_, _, takes_takeRequest id hg hb hst hp, rfl⟩
  | response hg hb hst hp hm =>
    exact Or.inr ⟨_, _, takes_takeResponse id hg hb hst hp, rfl⟩
  | switch hg hb hst hp hm =>
    exact Or.inr ⟨_, _, takes_takeResponse id hg hb hst hp, by simp⟩
  | badRequest => exact Or.inl (events_giveUp _ _ _ _)
  | badResponse => exact Or.inl (events_giveUp _ _ _ _)

/-- **A message starts in the chunk of its first byte**, which is the first byte behind those of
the earlier messages of its direction. -/
theorem Reached.origin_of_event (h : Reached stream n s) {before after : List Event}
    {event : Event} (he : s.events = before ++ event :: after) :
    (stream.originsBefore event.direction n)[(wireOf event.direction before).length]? =
      some event.start := by
  induction h generalizing after with
  | opening => cases before <;> cases he
  | arrive _ _ ih =>
    rw [events_arrive] at he
    have := ih he
    rw [Stream.getElem?_originsBefore] at this ⊢
    exact ⟨Nat.lt_succ_of_lt this.1, this.2⟩
  | step hr _ hstep ih =>
    rcases hstep.events_cases with hsame | ⟨event', t, ht, hsame⟩
    · exact ih (hsame ▸ he)
    · rw [hsame, ht.events] at he
      rcases List.eq_nil_or_concat after with rfl | ⟨after, last, rfl⟩
      · obtain ⟨rfl, hlast⟩ := List.append_inj' he rfl
        cases hlast
        exact hr.ledger.origin_of_takes ht
      · rw [List.concat_eq_append, ← List.cons_append, ← List.append_assoc] at he
        exact ih (List.append_inj' he rfl).1

/-- The chunk that a message starts in is one of the stream. -/
theorem Reached.start_lt (h : Reached stream n s) {event : Event} (he : event ∈ s.events) :
    event.start < stream.chunks.length := by
  obtain ⟨before, after, hsplit⟩ := List.append_of_mem he
  obtain ⟨-, chunk, hc, -⟩ := Stream.getElem?_originsBefore.mp (h.origin_of_event hsplit)
  exact (List.getElem?_eq_some_iff.mp hc).1

/-! ### The end of a run -/

/-- Nothing more is read in a direction. -/
def Dispatch.IsOver (s : Dispatch) (d : Direction) : Prop :=
  (s.pending d).gaveUp = true ∨ (s.pending d).buffer = []

theorem Dispatch.Takes.isOver {event : Event} (ht : s.Takes event s') {d : Direction}
    (h : s.IsOver d) : s'.IsOver d := by
  rw [IsOver, ht.gaveUp, ht.pending]
  split
  · rename_i hd
    subst hd
    rcases h with hg | hb
    · exact Or.inl hg
    · exact Or.inr (by rw [Pending.consume, hb, List.drop_nil])
  · exact h

theorem isOver_giveUp {d : Direction} (h : s.IsOver d) (id : Nat) (e : Direction)
    (why : Reason) : (s.giveUp id e why).IsOver d := by
  rw [IsOver, gaveUp_giveUp, pending_giveUp]
  rcases h with hg | hb
  · exact Or.inl (Or.inr hg)
  · refine Or.inr ?_
    split
    · rfl
    · exact hb

theorem Dispatch.Step.isOver {id : Nat} {atEnd : Bool} (hs : s.Step id atEnd s') {d : Direction}
    (h : s.IsOver d) : s'.IsOver d :=
  hs.keeps (P := fun s => s.IsOver d) (fun h ht => ht.isOver h)
    (fun h e why => isOver_giveUp h id e why) h

/-- What is read at the end of the stream is read to its end. -/
theorem isOver_drain (hc : s.IsCovered) (id : Nat) (d : Direction) :
    (s.drain id d true).IsOver d := by
  rcases drain_settled id d true hc with hg | hb | ⟨hf, -⟩
  · exact Or.inl hg
  · exact Or.inr hb
  · cases hf

/-- **At the end of a run** a direction has been given up, or all its bytes are in messages. -/
theorem isOver_dispatch (stream : Stream) (d : Direction) : (dispatch stream).IsOver d := by
  have hclient := isOver_drain (reached_stage (Nat.le_refl stream.chunks.length)).isCovered
    stream.metadata.id .clientToServer
  rw [dispatch_eq]
  cases d with
  | serverToClient => exact isOver_drain (reached_clientEnd stream).isCovered _ _
  | clientToServer => exact holds_of_steps (fun h hs => hs.isOver h) (drain_steps _ _ _ _) hclient

end HttpReplay.Http
