import HttpReplay.Proofs.Capture.Answers
import HttpReplay.Proofs.Sessions

/-!
# Sessions whose sink runs full

A sink that takes a limited number of bytes changes nothing of a session but where its output ends.
The session is compared with the same session whose sink has no limit. As long as the answers fit,
both do the same, stream by stream, except that the room shrinks. The first answer that does not fit
is written as far as there is room, after the script of its stream was saved, and ends the session.

* `HttpReplay.Session.answer_of_le` and `HttpReplay.Session.answer_of_lt` are the step: one stream
  whose answer fits, and one whose answer does not;
* `HttpReplay.Session.answerAll_of_le` and `HttpReplay.Session.answerAll_of_lt` are the run, by
  induction on the streams;
* `HttpReplay.Session.run_of_limit` compares **whole sessions**, for every limit.
-/

namespace HttpReplay

namespace Session

open Answer

variable {s : Session} {state : State} {fault : IoFault} {room : Nat}

/-- The state with a sink that has so much room. -/
def State.into (state : State) (fault : IoFault) (room : Option Nat) : State :=
  { state with sink := { room, fault } }

/-- The progress with such a sink. -/
def Progress.into (p : Progress) (fault : IoFault) (room : Option Nat) : Progress :=
  { p with state := p.state.into fault room }

/-! ### One stream -/

/-- The sink plays no part in saving a script. -/
theorem save_into (s : Session) (a : Artifact) (state : State) (fault : IoFault)
    (limit : Option Nat) :
    s.save a (state.into fault limit) =
      ((s.save a state).1, (s.save a state).2.1.into fault limit, (s.save a state).2.2) := by
  unfold save
  cases s.store with
  | none => rfl
  | some store =>
    rcases hsave : store.save a state.tree (s.faultsAt state.summary.saved) with
      ⟨_ | _, tree, log⟩ <;> simp only [State.into, hsave]

/-- Without a limit the whole answer is written. -/
theorem output_write (s : Session) (id : Nat) (chunks : List Chunk) (state : State)
    (fault : IoFault) :
    (s.write id chunks (state.into fault none)).output = text chunks := by
  have hopen : Answer.write (state.into fault none).sink chunks = _ :=
    Answer.write_of_unlimited rfl rfl chunks
  unfold write
  simp only [hopen]

/-- An answer that fits is written as if there were no limit. -/
theorem write_of_le {id : Nat} {chunks : List Chunk} (h : (text chunks).length ≤ room) :
    s.write id chunks (state.into fault (some room)) =
      (s.write id chunks (state.into fault none)).into fault
        (some (room - (text chunks).length)) := by
  have hlimited : Answer.write (state.into fault (some room)).sink chunks = _ :=
    Answer.write_of_le rfl rfl h
  have hopen : Answer.write (state.into fault none).sink chunks = _ :=
    Answer.write_of_unlimited rfl rfl chunks
  unfold write
  simp only [hlimited, hopen]
  rfl

/-- An answer that does not fit is written as far as there is room. -/
theorem write_of_lt (hfile : s.file = none) (state : State) (fault : IoFault) {id : Nat}
    {chunks : List Chunk} (h : room < (text chunks).length) :
    ∃ e after, IsShortage fault e ∧ after.tree = state.tree ∧
      s.write id chunks (state.into fault (some room)) =
        ⟨(text chunks).take room, [], after, some e⟩ := by
  obtain ⟨e, he, hlimited⟩ :=
    Answer.write_of_lt (s := (state.into fault (some room)).sink) rfl rfl h
  unfold write
  simp only [hlimited, record, hfile]
  refine ⟨e, _, he, ?_, rfl⟩
  rfl

section Answer

variable {stream : Stream}

/-- What a session without a limit does for a stream, if it does not fail. -/
theorem answer_of_none (hfile : s.file = none)
    (h : (s.answer stream (state.into fault none)).failure = none) :
    (s.answer stream (state.into fault none)).output = answerTo s.now stream ∧
      (s.answer stream (state.into fault none)).state.into fault none =
        (s.answer stream (state.into fault none)).state ∧
      ∀ rest, s.saveAll (stream :: rest) state.tree state.summary.saved =
        ((s.saveAll rest (s.answer stream (state.into fault none)).state.tree
            (s.answer stream (state.into fault none)).state.summary.saved).1 + 1,
          (s.saveAll rest (s.answer stream (state.into fault none)).state.tree
            (s.answer stream (state.into fault none)).state.summary.saved).2) := by
  have hcases : ∀ rest, ∃ log after,
      s.saveAll (stream :: rest) state.tree state.summary.saved =
        ((s.saveAll rest after.tree after.summary.saved).1 + 1,
          (s.saveAll rest after.tree after.summary.saved).2) ∧
      s.answer stream (state.into fault none) = ⟨answerTo s.now stream, log, after, none⟩ ∧
      after.sink = { room := none, fault } := by
    intro rest
    rcases s.answer_cases hfile stream rest (state.into fault none) rfl rfl with
      ⟨tree, log, -, hp⟩ | ⟨log, after, hall, hp, hsink, -⟩
    · rw [hp] at h
      cases h
    · exact ⟨log, after, hall, hp, hsink⟩
  obtain ⟨log, after, -, hp, hsink⟩ := hcases []
  refine ⟨by rw [hp], by rw [hp, State.into, ← hsink], fun rest => ?_⟩
  obtain ⟨log', after', hall, hp', -⟩ := hcases rest
  rw [hall, hp']

/-- **A stream whose answer fits**: the limit shows in nothing but the room that is left. -/
theorem answer_of_le (s : Session) (state : State) (fault : IoFault)
    (h : (s.answer stream (state.into fault none)).output.length ≤ room) :
    s.answer stream (state.into fault (some room)) =
      (s.answer stream (state.into fault none)).into fault
        (some (room - (s.answer stream (state.into fault none)).output.length)) := by
  unfold answer at h ⊢
  rcases hsave : s.save (stream.convert s.now).artifact state with ⟨_ | e, after, log⟩
  · simp only [save_into, hsave, output_write] at h ⊢
    rw [write_of_le h]
    simp only [Progress.into, output_write]
  · simp only [save_into, hsave]
    rfl

/-- **A stream whose answer does not fit**: its script is saved, and its answer is written as far
as there is room. -/
theorem answer_of_lt (hfile : s.file = none) (state : State) (fault : IoFault)
    (h : room < (s.answer stream (state.into fault none)).output.length) :
    ∃ e log after, IsShortage fault e ∧
      (s.answer stream (state.into fault none)).failure = none ∧
      after.tree = (s.answer stream (state.into fault none)).state.tree ∧
      s.answer stream (state.into fault (some room)) =
        ⟨(s.answer stream (state.into fault none)).output.take room, log, after, some e⟩ := by
  unfold answer at h ⊢
  rcases hsave : s.save (stream.convert s.now).artifact state with ⟨_ | e, after, log⟩
  · simp only [save_into, hsave] at h ⊢
    obtain ⟨more, whole, hwrite, -, htree, -⟩ := s.write_of_unlimited (after.into fault none)
      hfile rfl rfl stream.metadata.id (stream.convert s.now).chunks
    rw [hwrite] at h ⊢
    obtain ⟨e, stopped, he, htree', hwrite'⟩ := write_of_lt hfile after fault h
    rw [hwrite']
    exact ⟨e, _, stopped, he, rfl, htree'.trans htree.symm, rfl⟩
  · simp only [save_into, hsave] at h
    cases h

end Answer

/-! ### All streams -/

/-- One stream after the other, if the first does not make the session fail. -/
theorem answerAll_cons_of_none {stream : Stream} {log : Log} {rest : List (Stream × Log)}
    (h : (s.answer stream state).failure = none) :
    s.answerAll ((stream, log) :: rest) state =
      { s.answerAll rest (s.answer stream state).state with
        output := (s.answer stream state).output ++
          (s.answerAll rest (s.answer stream state).state).output
        log := log ++ (s.answer stream state).log ++
          (s.answerAll rest (s.answer stream state).state).log } := by
  rw [answerAll]
  simp only [h]

theorem answerAll_cons_of_some {stream : Stream} {log : Log} {rest : List (Stream × Log)}
    {e : SessionError} (h : (s.answer stream state).failure = some e) :
    s.answerAll ((stream, log) :: rest) state =
      { s.answer stream state with log := log ++ (s.answer stream state).log } := by
  rw [answerAll]
  simp only [h]

/-- **As long as all answers fit**, the limit shows in nothing but the room that is left. -/
theorem answerAll_of_le (hfile : s.file = none) {streams : List (Stream × Log)}
    (h : (s.answerAll streams (state.into fault none)).output.length ≤ room) :
    s.answerAll streams (state.into fault (some room)) =
      (s.answerAll streams (state.into fault none)).into fault
        (some (room - (s.answerAll streams (state.into fault none)).output.length)) := by
  induction streams generalizing state room with
  | nil => rfl
  | cons x rest ih =>
    obtain ⟨stream, log⟩ := x
    cases hp : (s.answer stream (state.into fault none)).failure with
    | some e =>
      rw [answerAll_cons_of_some hp] at h ⊢
      have hcut := answer_of_le s state fault h
      rw [answerAll_cons_of_some (e := e) (by rw [hcut]; exact hp), hcut]
      rfl
    | none =>
      rw [answerAll_cons_of_none hp, List.length_append] at h
      have hcut := answer_of_le s state fault (Nat.le_of_add_right_le h)
      rw [answerAll_cons_of_none hp, answerAll_cons_of_none (by rw [hcut]; exact hp), hcut]
      have hinto := (answer_of_none hfile hp).2.1
      generalize s.answer stream (state.into fault none) = p at h hinto ⊢
      have hrest := @ih p.state (room - p.output.length)
      rw [hinto] at hrest
      have hafter : (p.into fault (some (room - p.output.length))).state =
        p.state.into fault (some (room - p.output.length)) := rfl
      rw [hafter, hrest (Nat.le_sub_of_add_le' h)]
      simp only [Progress.into, List.length_append, Nat.sub_sub]

/-- **Where the room ends**: at the stream with a number, the first whose answer does not fit. Its
script and those before it are saved, which leaves a tree. So many scripts were saved before. -/
structure EndsAt (s : Session) (streams : List Stream) (tree : FileTree) (room number : Nat)
    (after : FileTree) (before : Nat := 0) : Prop where
  lt : number < streams.length
  fits : ((streams.take number).flatMap (answerTo s.now)).length ≤ room
  overflows : room < ((streams.take (number + 1)).flatMap (answerTo s.now)).length
  saved : s.saveAll (streams.take (number + 1)) tree before = (number + 1, after)

section EndsAt

variable {stream : Stream} {streams : List Stream} {tree between after : FileTree}
  {number m n : Nat}

theorem EndsAt.first (hsave : s.saveAll [stream] tree m = (1, after))
    (h : room < (answerTo s.now stream).length) :
    s.EndsAt (stream :: streams) tree room 0 after m where
  lt := Nat.succ_pos _
  fits := Nat.zero_le _
  overflows := by simpa using h
  saved := hsave

theorem EndsAt.later
    (hsave : ∀ rest, s.saveAll (stream :: rest) tree m =
      ((s.saveAll rest between n).1 + 1, (s.saveAll rest between n).2))
    (hle : (answerTo s.now stream).length ≤ room)
    (h : s.EndsAt streams between (room - (answerTo s.now stream).length) number after n) :
    s.EndsAt (stream :: streams) tree room (number + 1) after m where
  lt := Nat.succ_lt_succ h.lt
  fits := by
    have := h.fits
    rw [List.take_succ_cons, List.flatMap_cons, List.length_append]
    omega
  overflows := by
    have := h.overflows
    rw [List.take_succ_cons, List.flatMap_cons, List.length_append]
    omega
  saved := by rw [List.take_succ_cons, hsave, h.saved]

/-- The scripts that are saved where the room ends lie in the store, and everything else is as it
was. -/
theorem EndsAt.kept {store : Store} (hstore : s.store = some store)
    (h : s.EndsAt streams tree room number after) :
    store.Kept tree (artifacts s.now (streams.take (number + 1))) after := by
  have hlength : (streams.take (number + 1)).length = number + 1 :=
    List.length_take_of_le (Nat.succ_le_of_lt h.lt)
  obtain ⟨kept, hkept, hall, -⟩ := exists_kept_saveAll hstore (streams.take (number + 1)) tree
  rw [h.saved] at hkept hall
  obtain rfl : after = kept := hall hlength.symm
  rwa [List.take_of_length_le (Nat.le_of_eq hlength)] at hkept

end EndsAt

/-- **If the answers do not fit**, they are written as far as there is room, and the session fails
at the first stream whose answer does not fit. -/
theorem answerAll_of_lt (hfile : s.file = none) {streams : List (Stream × Log)}
    (h : room < (s.answerAll streams (state.into fault none)).output.length) :
    ∃ e number, IsShortage fault e ∧
      (s.answerAll streams (state.into fault (some room))).failure = some e ∧
      (s.answerAll streams (state.into fault (some room))).output =
        (s.answerAll streams (state.into fault none)).output.take room ∧
      s.EndsAt (streams.map (·.1)) state.tree room number
        (s.answerAll streams (state.into fault (some room))).state.tree
        state.summary.saved := by
  induction streams generalizing state room with
  | nil => cases h
  | cons x rest ih =>
    obtain ⟨stream, log⟩ := x
    cases hp : (s.answer stream (state.into fault none)).failure with
    | some e =>
      -- A stream that fails without a limit has no answer.
      rw [answerAll_cons_of_some hp] at h
      obtain ⟨-, -, -, -, hnone, -⟩ := answer_of_lt hfile state fault h
      rw [hp] at hnone
      cases hnone
    | none =>
      obtain ⟨houtput, hinto, hsave⟩ := answer_of_none hfile hp
      rw [answerAll_cons_of_none hp] at h ⊢
      rcases Nat.lt_or_ge room (s.answer stream (state.into fault none)).output.length with
        hlt | hle
      · -- The room ends in this answer.
        obtain ⟨e, said, after, he, -, htree, hcut⟩ := answer_of_lt hfile state fault hlt
        rw [answerAll_cons_of_some (e := e) (by rw [hcut]), hcut,
          List.take_append_of_le_length (Nat.le_of_lt hlt)]
        have hone := hsave []
        rw [saveAll_nil, ← htree] at hone
        exact ⟨e, 0, he, rfl, rfl, .first hone (houtput ▸ hlt)⟩
      · -- The answer fits, so the room ends in a later one.
        have hcut := answer_of_le s state fault hle
        rw [answerAll_cons_of_none (by rw [hcut]; exact hp), hcut]
        generalize s.answer stream (state.into fault none) = p at *
        have hrest := @ih p.state (room - p.output.length)
        rw [hinto] at hrest
        have hafter : (p.into fault (some (room - p.output.length))).state =
          p.state.into fault (some (room - p.output.length)) := rfl
        rw [List.length_append] at h
        obtain ⟨e, number, he, hfailure, hcutOutput, hends⟩ :=
          hrest (Nat.sub_lt_left_of_lt_add hle h)
        rw [houtput] at hle hends
        refine ⟨e, number + 1, he, hfailure, ?_, .later hsave hle ?_⟩
        · rw [List.take_append, List.take_of_length_le (houtput ▸ hle), ← hcutOutput]
          rfl
        · rw [hafter, houtput]
          exact hends

/-! ### Whole sessions -/

theorem result_of_some {p : Progress} {e : SessionError} (h : p.failure = some e)
    (ending : Except SessionError Nat) : (p.outcome ending).result = .error e := by
  unfold Progress.outcome
  rw [h]

/-- **A sink that runs full cuts the output and nothing else.** A session whose sink takes so many
bytes and then fails writes the first bytes of what it writes to a sink without a limit. If all of
that fits, both leave the same in every respect. If not, the session fails for the sink, at the
first stream whose answer does not fit; the scripts of the streams up to and including that one are
saved, and those of no other. A single answer is cut in the same way, and its writing succeeds just
if it fits. -/
theorem run_of_limit (now : Instant) (store : Option Store)
    (faults : List FileTree.WriteFaults) (fault : IoFault) (limit : Nat) (tree : FileTree)
    (reader : Reader) :
    let session : Session := { now, store, faults }
    let sink : Sink := { room := some limit, fault }
    let streams := reader.streams.1.map (·.1)
    let whole := session.run { room := none, fault } tree reader
    let cut := session.run sink tree reader
    cut.output = whole.output.take limit ∧
    (whole.output.length ≤ limit → cut = whole) ∧
    (limit < whole.output.length → ∃ e number, IsShortage fault e ∧ cut.result = .error e ∧
      session.EndsAt streams tree limit number cut.tree ∧
      ∀ s, store = some s → s.Kept tree (artifacts now (streams.take (number + 1))) cut.tree) ∧
    ∀ chunks, (Answer.write sink chunks).1 = (Answer.text chunks).take limit ∧
      ((∃ left, (Answer.write sink chunks).2 = .ok left) ↔
        (Answer.text chunks).length ≤ limit) := by
  intro session sink streams whole cut
  have hwhole : whole.output = (session.answerAll reader.streams.1
      (State.into { sink, tree } fault none)).output := (outcome_fst _ _).1
  have hfits : whole.output.length ≤ limit → cut = whole := fun h =>
    congrArg (·.outcome reader.streams.2) (answerAll_of_le rfl (hwhole ▸ h))
  have hends : limit < whole.output.length → cut.output = whole.output.take limit ∧
      ∃ e number, IsShortage fault e ∧ cut.result = .error e ∧
        session.EndsAt streams tree limit number cut.tree := by
    intro h
    obtain ⟨e, number, he, hfailure, houtput, hends⟩ := answerAll_of_lt rfl (hwhole ▸ h)
    obtain ⟨hcutOutput, hcutTree⟩ := outcome_fst (session.answerAll reader.streams.1
      { sink, tree }) reader.streams.2
    refine ⟨hcutOutput.trans (houtput.trans (hwhole ▸ rfl)), e, number, he, ?_, ?_⟩
    · exact result_of_some hfailure _
    · exact hcutTree ▸ hends
  refine ⟨?_, hfits, fun h => ?_, fun chunks => ?_⟩
  · rcases Nat.lt_or_ge limit whole.output.length with hlt | hle
    · exact (hends hlt).1
    · rw [hfits hle, List.take_of_length_le hle]
  · obtain ⟨-, e, number, he, hresult, hends⟩ := hends h
    exact ⟨e, number, he, hresult, hends, fun s hs => hends.kept hs⟩
  · rcases Nat.lt_or_ge limit (Answer.text chunks).length with hlt | hle
    · obtain ⟨e, -, hwrite⟩ := Answer.write_of_lt (s := sink) rfl rfl hlt
      rw [hwrite]
      exact ⟨rfl, iff_of_false (by simp) (Nat.not_le_of_lt hlt)⟩
    · rw [Answer.write_of_le (s := sink) rfl rfl hle]
      exact ⟨(List.take_of_length_le hle).symm, iff_of_true ⟨_, rfl⟩ hle⟩

end Session

end HttpReplay
