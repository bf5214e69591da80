import HttpReplay.Proofs.Capture.LineNumbers
import HttpReplay.Proofs.Sessions.Limits

/-!
# Why sessions fail

A session fails where its input cannot be read, where a script cannot be saved, and where its
answers cannot be written. Which of these it was shows in the error, with one exception: a sink that
runs full in the middle of a record is reported as if a line of the input were malformed, and that
line has the number zero. A sink that cannot be flushed ends a session with its first answer.

* `HttpReplay.Answer.EndsIn` – the piece in which the room of a sink ends;
* `HttpReplay.Session.answerAll_writes` – what a session writes, and how it fails, is what writing
  all of its pieces in a row gives, by induction on the streams;
* `HttpReplay.Session.errors_of_run` – **whole sessions**.
-/

namespace HttpReplay

/-! ### Inputs that fail -/

/-- A reader at the start of an input that gives these bytes and then fails. The line in which it
fails is not read. -/
def Reader.ofBroken (bytes : Bytes) (fault : IoFault) : Reader :=
  { unread := (Reader.lines bytes).take (bytes.count Byte.lf), failure := some fault }

/-- A reader at the start of an input that gives these bytes, and may fail then. -/
def Reader.ofInput (bytes : Bytes) : Option IoFault → Reader
  | none => .ofBytes bytes
  | some fault => .ofBroken bytes fault

theorem Reader.unread_ofInput (bytes : Bytes) (failure : Option IoFault) :
    (Reader.ofInput bytes failure).unread <+: Reader.lines bytes ∧
      (Reader.ofInput bytes failure).count = 0 := by
  cases failure with
  | none => exact ⟨List.prefix_refl _, rfl⟩
  | some fault => exact ⟨List.take_prefix _ _, rfl⟩

namespace Answer

variable {s : Sink} {room : Nat} {p q : Piece} {front back pieces : List Piece} {e : SessionError}

/-! ### Where the room ends -/

/-- **The piece in which the room ends**: those before it fit, and it does not fit behind them. -/
def EndsIn (pieces : List Piece) (room : Nat) (p : Piece) : Prop :=
  ∃ before after, pieces = before ++ p :: after ∧ (before.flatMap (·.bytes)).length ≤ room ∧
    room < (before.flatMap (·.bytes)).length + p.bytes.length

/-- The room ends in a piece that does not fit into it. -/
theorem endsIn_cons_of_lt (h : room < p.bytes.length) : EndsIn (p :: pieces) room q ↔ q = p := by
  constructor
  · rintro ⟨_ | ⟨first, before⟩, after, heq, hle, -⟩
    · exact (List.cons_eq_cons.mp heq).1.symm
    · obtain ⟨rfl, -⟩ := List.cons_eq_cons.mp heq
      rw [List.flatMap_cons, List.length_append] at hle
      omega
  · rintro rfl
    exact ⟨[], pieces, rfl, Nat.zero_le _, by simpa using h⟩

/-- Behind a piece that fits the room is less by its length. -/
theorem endsIn_cons_of_le (h : p.bytes.length ≤ room) :
    EndsIn (p :: pieces) room q ↔ EndsIn pieces (room - p.bytes.length) q := by
  constructor
  · rintro ⟨_ | ⟨first, before⟩, after, heq, hle, hlt⟩
    · obtain ⟨rfl, -⟩ := List.cons_eq_cons.mp heq
      simp only [List.flatMap_nil, List.length_nil] at hlt
      omega
    · obtain ⟨rfl, rfl⟩ := List.cons_eq_cons.mp heq
      rw [List.flatMap_cons, List.length_append] at hle hlt
      exact ⟨before, after, rfl, by omega, by omega⟩
  · rintro ⟨before, after, rfl, hle, hlt⟩
    refine ⟨p :: before, after, rfl, ?_, ?_⟩ <;> rw [List.flatMap_cons, List.length_append] <;>
      omega

theorem EndsIn.append (h : EndsIn front room p) (back : List Piece) :
    EndsIn (front ++ back) room p := by
  obtain ⟨before, after, rfl, hle, hlt⟩ := h
  exact ⟨before, after ++ back, by simp, hle, hlt⟩

/-- **Writing fails in the piece in which the room ends**, and as that piece says. -/
theorem writePieces_eq_error (hflush : s.flushing = none) (hroom : s.room = some room) :
    (writePieces s pieces).2 = .error e ↔ ∃ p, EndsIn pieces room p ∧ e = p.failure s.fault := by
  induction pieces generalizing s room with
  | nil =>
    refine iff_of_false (by simp [writePieces]) ?_
    rintro ⟨p, ⟨before, after, heq, -⟩, -⟩
    simp at heq
  | cons p pieces ih =>
    rcases Nat.lt_or_ge room p.bytes.length with hlt | hle
    · rw [writePieces, Piece.write_of_lt hroom hlt]
      simp only [endsIn_cons_of_lt hlt, exists_eq_left, Except.error.injEq]
      exact eq_comm
    · rw [writePieces, Piece.write_of_le hflush hroom hle]
      simp only [endsIn_cons_of_le hle]
      exact ih (s := { s with room := some (room - p.bytes.length) }) hflush rfl

/-- A sink with a limit fails where its room ends, and one without a limit does not fail. -/
theorem writePieces_error_iff (hflush : s.flushing = none) :
    (writePieces s pieces).2 = .error e ↔
      ∃ room p, s.room = some room ∧ EndsIn pieces room p ∧ e = p.failure s.fault := by
  cases hroom : s.room with
  | none =>
    rw [writePieces_of_unlimited hflush hroom]
    simp
  | some room =>
    rw [writePieces_eq_error hflush hroom]
    simp

/-- If pieces do not fit, the room ends in one of them. -/
theorem exists_endsIn (h : room < (pieces.flatMap (·.bytes)).length) :
    ∃ p, EndsIn pieces room p := by
  obtain ⟨p, -, hwrite⟩ := writePieces_of_lt (s := { room := some room }) rfl rfl h
  obtain ⟨q, hends, -⟩ := (writePieces_eq_error rfl rfl).mp (congrArg Prod.snd hwrite)
  exact ⟨q, hends⟩

/-- **How the writing of an answer fails**: where the room ends, or when all is written and the sink
cannot be flushed. -/
theorem write_eq_error_iff {chunks : List Chunk} :
    (write s chunks).2 = .error e ↔
      (∃ room p, s.room = some room ∧ EndsIn (Answer.pieces chunks) room p ∧
        e = p.failure s.fault) ∨
      ∃ f, s.flushing = some f ∧ e = .io f ∧
        ∀ room, s.room = some room → (text chunks).length ≤ room := by
  have hends : (writePieces { s with flushing := none } (Answer.pieces chunks)).2 = .error e ↔ _ :=
    writePieces_error_iff rfl
  have hfits : (∃ left, (write { s with flushing := none } chunks).2 = .ok left) ↔ _ :=
    exists_write_eq_ok_iff rfl
  rw [show write s chunks = write { s with flushing := s.flushing } chunks from rfl, snd_write,
    ← hends, ← hfits]
  rcases hwrite : write { s with flushing := none } chunks with ⟨taken, e' | left⟩
  · have hfull : (writePieces { s with flushing := none } (Answer.pieces chunks)).2 = .error e' :=
      congrArg Prod.snd hwrite
    simp [hfull, Except.bind]
  · have hall : (writePieces { s with flushing := none } (Answer.pieces chunks)).2 = .ok left :=
      congrArg Prod.snd hwrite
    cases hflush : s.flushing <;> simp [hall, Except.bind, Sink.flush, Except.mapError, eq_comm]

/-- The record of a chunk, or what stands around it. -/
theorem failure_of_mem_pieces {chunks : List Chunk} (h : p ∈ Answer.pieces chunks)
    (fault : IoFault) :
    p.failure fault = .io fault ∨ (p.failure fault = .record fault ∧
      ∃ c ∈ chunks, p.bytes = Bytes.ofText (String.ofList c.render)) := by
  rcases List.mem_append.mp h with h | h
  · obtain ⟨c, hc, h⟩ := List.mem_flatMap.mp h
    simp only [piecesOf, List.mem_cons, List.not_mem_nil, or_false] at h
    rcases h with rfl | rfl
    · exact .inr ⟨rfl, c, hc, rfl⟩
    · exact .inl rfl
  · obtain rfl := List.mem_singleton.mp h
    exact .inl rfl

end Answer

namespace Session

open Answer

/-- The pieces of the answers to some streams. -/
def piecesFor (now : Instant) (streams : List Stream) : List Piece :=
  streams.flatMap fun stream => pieces (stream.convert now).chunks

theorem failure_of_mem_piecesFor {now : Instant} {streams : List Stream} {p : Piece}
    (h : p ∈ piecesFor now streams) (fault : IoFault) :
    p.failure fault = .io fault ∨ (p.failure fault = .record fault ∧ ∃ stream ∈ streams,
      ∃ c ∈ (stream.convert now).chunks, p.bytes = Bytes.ofText (String.ofList c.render)) := by
  obtain ⟨stream, hstream, hp⟩ := List.mem_flatMap.mp h
  rcases failure_of_mem_pieces hp fault with hio | ⟨hrecord, c, hc, hbytes⟩
  · exact .inl hio
  · exact .inr ⟨hrecord, stream, hstream, c, hc, hbytes⟩

theorem flatMap_piecesFor (now : Instant) (streams : List Stream) :
    streams.flatMap (answerTo now) = (piecesFor now streams).flatMap (·.bytes) := by
  rw [piecesFor, List.flatMap_assoc]
  rfl

variable {s : Session} {state : State}

/-! ### All streams -/

/-- **What a session writes, and how it fails**: it writes the pieces of its answers in a row, and
if that does not fail, it fails for a script that cannot be saved. -/
theorem answerAll_writes (hfile : s.file = none) (streams : List (Stream × Log)) (state : State) :
    let count := (s.saveAll (streams.map (·.1)) state.tree state.summary.saved).1
    let written := writePieces state.sink (piecesFor s.now ((streams.map (·.1)).take count))
    (s.answerAll streams state).output = written.1 ∧
      (s.answerAll streams state).failure =
        match written.2 with
        | .error e => some e
        | .ok _ => if count = streams.length then none else some (.store .writeFailed) := by
  induction streams generalizing state with
  | nil =>
    simp only [List.map_nil, saveAll_nil]
    exact ⟨rfl, rfl⟩
  | cons x rest ih =>
    obtain ⟨stream, log⟩ := x
    rw [List.map_cons]
    rcases answer_writes hfile stream (rest.map (·.1)) state with
      ⟨tree, said, hall, hanswer⟩ | ⟨said, after, hall, hwrite⟩
    · rw [answerAll, hanswer, hall]
      exact ⟨rfl, rfl⟩
    · obtain ⟨houtput, hfailure⟩ := ih after
      rw [hall]
      simp only [List.take_succ_cons, piecesFor, List.flatMap_cons, writePieces_append]
      rcases hown : writePieces state.sink (pieces (stream.convert s.now).chunks) with
        ⟨taken, e | sink⟩ <;> rw [Answer.write, hown] at hwrite
      · rw [answerAll, show s.answer stream state = _ from hwrite]
        exact ⟨rfl, rfl⟩
      · obtain ⟨hanswer, rfl, -⟩ := hwrite
        rw [answerAll, hanswer]
        refine ⟨congrArg (taken ++ ·) houtput, hfailure.trans ?_⟩
        simp only [List.length_cons, Nat.add_right_cancel_iff]
        rfl

/-! ### Sinks that cannot be flushed -/

section Flushing

variable {sink : Sink} {now : Instant} {e : SessionError}

/-- Behind the first answer the sink is flushed, so nothing of a later one is written. -/
theorem exists_error_of_flushing (now : Instant) {f : IoFault} (hflush : sink.flushing = some f)
    (stream : Stream) (rest : List Stream) :
    ∃ e, (writePieces sink (piecesFor now (stream :: rest))).2 = .error e ∧
      (Answer.write sink (stream.convert now).chunks).2 = .error e := by
  have hfirst : ∃ e, (Answer.write sink (stream.convert now).chunks).2 = .error e := by
    by_cases hfits : ∀ room, sink.room = some room →
        (text (stream.convert now).chunks).length ≤ room
    · exact ⟨_, write_eq_error_iff.mpr (.inr ⟨f, hflush, rfl, hfits⟩)⟩
    · push Not at hfits
      obtain ⟨room, hroom, hlt⟩ := hfits
      obtain ⟨p, hends⟩ := exists_endsIn hlt
      exact ⟨_, write_eq_error_iff.mpr (.inl ⟨room, p, hroom, hends, rfl⟩)⟩
  obtain ⟨e, he⟩ := hfirst
  refine ⟨e, ?_, he⟩
  rw [piecesFor, List.flatMap_cons, writePieces_append]
  rcases hwrite : writePieces sink (pieces (stream.convert now).chunks) with ⟨taken, e' | left⟩
  · exact (congrArg Prod.snd hwrite).symm.trans he
  · rw [Answer.write, hwrite] at he
    cases he

/-- **How the writing of some answers fails**: where the room ends, or for a sink that cannot be
flushed. -/
theorem error_of_piecesFor {streams : List Stream}
    (h : (writePieces sink (piecesFor now streams)).2 = .error e) :
    (∃ limit p, sink.room = some limit ∧ EndsIn (piecesFor now streams) limit p ∧
        e = p.failure sink.fault) ∨
      ∃ f, sink.flushing = some f ∧ e = .io f := by
  cases hflush : sink.flushing with
  | none => exact .inl ((writePieces_error_iff hflush).mp h)
  | some f =>
    cases streams with
    | nil => cases h
    | cons stream rest =>
      obtain ⟨e', hall, hfirst⟩ := exists_error_of_flushing now hflush stream rest
      obtain rfl : e = e' := Except.error.inj (h.symm.trans hall)
      rcases write_eq_error_iff.mp hfirst with ⟨limit, p, hroom, hends, he⟩ | ⟨g, hg, he, -⟩
      · exact .inl ⟨limit, p, hroom, hends.append _, he⟩
      · exact .inr ⟨f, rfl, Option.some.inj (hflush.symm.trans hg) ▸ he⟩

end Flushing

/-! ### Whole sessions -/

/-- A session fails as the writing of its answers does, or for a script, or as the reading does. -/
theorem error_cases {p : Progress} {ending : Except SessionError Nat} {e : SessionError}
    (h : (p.outcome ending).result = .error e) :
    p.failure = some e ∨ (p.failure = none ∧ ending = .error e) := by
  unfold Progress.outcome at h
  cases hfailure : p.failure with
  | some e' =>
    simp only [hfailure, Except.error.injEq] at h
    exact .inl (congrArg some h)
  | none =>
    cases ending with
    | error e' =>
      simp only [hfailure, Except.error.injEq] at h
      exact .inr ⟨rfl, congrArg Except.error h⟩
    | ok lines => simp [hfailure] at h

/-- **The origins of an error**: the sink, the store or the input. -/
theorem error_of_run (hfile : s.file = none) {sink : Sink} {tree : FileTree} {reader : Reader}
    {e : SessionError} (h : (s.run sink tree reader).result = .error e) :
    let streams := reader.streams.1.map (·.1)
    let answered := streams.take (s.saveAll streams tree).1
    (∃ limit p, sink.room = some limit ∧ EndsIn (piecesFor s.now answered) limit p ∧
        e = p.failure sink.fault) ∨
      (∃ f, sink.flushing = some f ∧ e = .io f) ∨
      (e = .store .writeFailed ∧ answered.length < streams.length) ∨
      ∃ left, reader.Fails true left e := by
  intro streams answered
  rcases error_cases h with hsome | ⟨-, hending⟩
  · rw [(answerAll_writes hfile reader.streams.1 { sink, tree }).2] at hsome
    split at hsome
    · rename_i heq
      rcases error_of_piecesFor (heq.trans (congrArg _ (Option.some.inj hsome))) with hroom | hflush
      · exact .inl hroom
      · exact .inr (.inl hflush)
    · split_ifs at hsome with hcount
      refine .inr (.inr (.inl ⟨(Option.some.inj hsome).symm, ?_⟩))
      have hlength : streams.length = reader.streams.1.length := List.length_map ..
      have hle := s.saveAll_le streams tree 0
      rw [List.length_take, Nat.min_eq_left hle]
      exact Nat.lt_of_le_of_ne hle (hlength ▸ hcount)
  · have hspec := reader.streams_spec
    rw [hending] at hspec
    exact .inr (.inr (.inr hspec))

/-- **Why sessions fail.** Let a session read some bytes, behind which its input may fail, and let
its sink have room for a limited number of bytes, or for any. If the room ends in a piece of the
answers that are written, the session fails with the fault of the sink, as that piece says: as a
fault of writing if it is a line end or what closes an answer, but as a malformed line if it is the
record of a chunk. If the sink cannot be flushed, the session fails in or behind its first answer.
Otherwise a session fails for a script that cannot be saved, or as the reading of its input does:
behind lines in which nothing is wrong, with a malformed line or where the input fails. So an error
that names a line names the first malformed line of the input, counted from one, unless the room
ended in a record; then it names the line zero. A single answer fails in the same way: in the piece
in which the room ends, or for a sink that cannot be flushed behind it. -/
theorem errors_of_run (now : Instant) (store : Option Store) (faults : List FileTree.WriteFaults)
    (sink : Sink) (tree : FileTree) (bytes : Bytes) (failure : Option IoFault) :
    let reader := Reader.ofInput bytes failure
    let session : Session := { now, store, faults }
    let streams := reader.streams.1.map (·.1)
    let answered := streams.take (session.saveAll streams tree).1
    let result := (session.run sink tree reader).result
    (∀ limit, sink.room = some limit → sink.flushing = none →
      limit < (answered.flatMap (answerTo now)).length →
      ∃ p, EndsIn (piecesFor now answered) limit p ∧ result = .error (p.failure sink.fault)) ∧
    (∀ f stream rest, sink.flushing = some f → answered = stream :: rest →
      ∃ e, result = .error e ∧ (Answer.write sink (stream.convert now).chunks).2 = .error e) ∧
    (∀ p ∈ piecesFor now answered, p.failure sink.fault = .io sink.fault ∨
      (p.failure sink.fault = .record sink.fault ∧ ∃ stream ∈ answered,
        ∃ c ∈ (stream.convert now).chunks, p.bytes = Bytes.ofText (String.ofList c.render))) ∧
    (∀ e, result = .error e →
      (∃ limit p, sink.room = some limit ∧ EndsIn (piecesFor now answered) limit p ∧
        e = p.failure sink.fault) ∨
      (∃ f, sink.flushing = some f ∧ e = .io f) ∨
      (e = .store .writeFailed ∧ answered.length < streams.length) ∨
      ∃ left, reader.Fails true left e) ∧
    (∀ e number, result = .error e → e.lineNumber? = some number →
      (e = .record sink.fault ∧ number = 0) ∨
      ∃ passed line after isNext, Reader.lines bytes = passed ++ line :: after ∧
        number = passed.length + 1 ∧ Reader.Sound true passed isNext ∧
        Reader.Malformed isNext number line e) ∧
    ∀ chunks e, (Answer.write sink chunks).2 = .error e ↔
      (∃ limit p, sink.room = some limit ∧ EndsIn (pieces chunks) limit p ∧
        e = p.failure sink.fault) ∨
      ∃ f, sink.flushing = some f ∧ e = .io f ∧
        ∀ limit, sink.room = some limit → (text chunks).length ≤ limit := by
  intro reader session streams answered result
  have hwrites := (answerAll_writes (s := session) rfl reader.streams.1 { sink, tree }).2
  refine ⟨fun limit hroom hflush hlt => ?_, fun f stream rest hflush hfirst => ?_,
    fun p hp => failure_of_mem_piecesFor hp sink.fault, fun e he => error_of_run rfl he,
    fun e number he hnumber => ?_, fun chunks e => write_eq_error_iff⟩
  · obtain ⟨p, hends⟩ := exists_endsIn (flatMap_piecesFor now answered ▸ hlt)
    refine ⟨p, hends, result_of_some ?_ _⟩
    rw [hwrites, (writePieces_error_iff hflush).mpr ⟨limit, p, hroom, hends, rfl⟩]
  · obtain ⟨e, hall, hone⟩ := exists_error_of_flushing now hflush stream rest
    rw [← hfirst] at hall
    refine ⟨e, result_of_some ?_ _, hone⟩
    rw [hwrites, hall]
  · rcases error_of_run rfl he with
      ⟨limit, p, -, ⟨before, after, hp, -⟩, rfl⟩ | ⟨f, -, rfl⟩ | ⟨rfl, -⟩ | ⟨left, hfails⟩
    · -- Of all faults of writing only that of a record names a line.
      have hmem : p ∈ piecesFor now answered := by
        rw [hp]
        exact List.mem_append_right before List.mem_cons_self
      rcases failure_of_mem_piecesFor hmem sink.fault with hio | ⟨hrecord, -⟩
      · rw [hio] at hnumber
        cases hnumber
      · rw [hrecord] at hnumber ⊢
        exact .inl ⟨rfl, (Option.some.inj hnumber).symm⟩
    · cases hnumber
    · cases hnumber
    · -- A reader that fails has read from its start on, so it names the line as the input has it.
      obtain ⟨passed, line, isNext, hunread, hsound, hline, hcount⟩ := hfails.lineNumber hnumber
      obtain ⟨⟨after, hafter⟩, hzero⟩ := Reader.unread_ofInput bytes failure
      refine .inr ⟨passed, line, left.unread ++ after, isNext, ?_, ?_, hsound, hline⟩
      · rw [← hafter, hunread, List.append_assoc, List.cons_append]
      · rw [hcount, hzero, Nat.zero_add]

/-- **A full sink is reported as a malformed line zero** if it runs full in the middle of a record,
by a session and by the writing of a single answer. -/
theorem error_of_fullSink :
    let sink : Sink := { room := some 10 }
    let chunk : Chunk := ⟨.clientToServer, Bytes.ascii "hi", ⟨1700000000, 0⟩⟩
    let e : SessionError := .record sink.fault
    (({ now := ⟨0, 0⟩ } : Session).run sink { nodes := [], current := [] }
        (Reader.ofInput loneLine none)).result =
        .error e ∧
      (Answer.write sink [chunk]).2 = .error e ∧ e.lineNumber? = some 0 ∧
      e.message = "Malformed JSON on line 0: writer is full" := by
  decide +kernel

end Session

end HttpReplay
