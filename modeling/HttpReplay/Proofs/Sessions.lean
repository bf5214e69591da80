import HttpReplay.Proofs.Capture.Answers
import HttpReplay.Proofs.Dispatch.Requests
import HttpReplay.Proofs.Files.Stores
import HttpReplay.Session
import Mathlib.Algebra.GroupWithZero.Nat

/-!
# What a session does

A session with room for all of its answers does nothing but answer its streams, each by itself:
what it writes is the answers of the streams one after the other, and what it leaves in the store
are their scripts. It can fail where a script cannot be saved and where a stream cannot be read,
and in both cases everything before is done and nothing of what comes after.

* `HttpReplay.Session.saveAll` – what a session saves of some streams;
* `HttpReplay.Session.answer_writes` – what a session does for one stream;
* `HttpReplay.Session.Did` – what a session has done after some streams;
* `HttpReplay.Session.did_answerAll` – **it has done that**, by induction on the streams;
* `HttpReplay.Session.run_concatenates` – **whole sessions**.
-/

namespace HttpReplay

/-! ### Conversions -/

theorem Script.streamId_ofRequests (m : Metadata) (requests : List Request) :
    (Script.ofRequests m requests).streamId = m.id := by
  have hkeep : ∀ script : Script,
      (requests.foldl Script.push script).streamId = script.streamId := by
    induction requests with
    | nil => exact fun _ => rfl
    | cons r requests ih => exact fun script => ih (script.push r)
  exact hkeep (Script.opening m)

/-- The script of a stream is for that stream. -/
theorem Stream.streamId_convert (now : Instant) (stream : Stream) :
    (stream.convert now).artifact.streamId = stream.metadata.id := by
  rw [Stream.convert_artifact]
  exact Script.streamId_ofRequests stream.metadata _

/-- The script of a stream is the last chunk of its answer. -/
theorem Conversion.getLast?_chunks (c : Conversion) :
    c.chunks.getLast? = some c.artifact.toChunk := by
  rw [Conversion.chunks, assemble, List.getLast?_append]
  rfl

namespace Session

/-- The scripts of some streams. -/
def artifacts (now : Instant) (streams : List Stream) : List Artifact :=
  streams.map fun stream => (stream.convert now).artifact

/-- The answer to a stream. -/
def answerTo (now : Instant) (stream : Stream) : Bytes := Answer.text (stream.convert now).chunks

/-- **What a session saves** of some streams, one after the other up to the first whose script
cannot be saved: how many it gets past, and the tree that is left. Without a store it gets past
all of them. So many scripts were saved before. -/
def saveAll (s : Session) (streams : List Stream) (tree : FileTree) (saved : Nat := 0) :
    Nat × FileTree :=
  match s.store with
  | none => (streams.length, tree)
  | some store => store.saveAll (s.faults.drop saved) (artifacts s.now streams) tree

variable {s : Session} {state : State} {stream : Stream} {streams : List Stream}

theorem saveAll_le (s : Session) (streams : List Stream) (tree : FileTree) (saved : Nat) :
    (s.saveAll streams tree saved).1 ≤ streams.length := by
  unfold saveAll
  cases s.store with
  | none => exact Nat.le_refl _
  | some store =>
    have h := store.saveAll_le (s.faults.drop saved) (artifacts s.now streams) tree
    rwa [artifacts, List.length_map] at h

/-! ### One stream -/

/-- How many scripts were saved when so many streams were answered. -/
def savedOf (s : Session) (count : Nat) : Nat := if s.store.isSome then count else 0

/-- **Saving the script of a stream** fails, or the session goes on with the tree that the store
leaves. -/
theorem save_cases (s : Session) (stream : Stream) (rest : List Stream) (state : State) :
    (∃ tree log, s.saveAll (stream :: rest) state.tree state.summary.saved = (0, tree) ∧
        s.save (stream.convert s.now).artifact state =
          (some (.store .writeFailed), { state with tree }, log)) ∨
      ∃ tree log, s.saveAll (stream :: rest) state.tree state.summary.saved =
          ((s.saveAll rest tree (state.summary.saved + s.savedOf 1)).1 + 1,
            (s.saveAll rest tree (state.summary.saved + s.savedOf 1)).2) ∧
        s.save (stream.convert s.now).artifact state =
          (none, { state with
            tree
            summary := { state.summary with saved := state.summary.saved + s.savedOf 1 } },
            log) := by
  unfold save saveAll savedOf
  cases s.store with
  | none => exact .inr ⟨state.tree, [], rfl, rfl⟩
  | some store =>
    have hfault : s.faultsAt state.summary.saved =
        (s.faults.drop state.summary.saved).head?.getD {} := by
      rw [faultsAt, List.head?_drop]
    simp only [hfault, Option.isSome_some, if_true, ← List.tail_drop]
    rcases store.saved_or_failed (stream.convert s.now).artifact state.tree
      ((s.faults.drop state.summary.saved).head?.getD {}) with
      ⟨tree, log, hsave, -⟩ | ⟨dir, log, -, hsave⟩
    · exact .inl ⟨tree, log, Store.saveAll_of_error hsave, by simp only [hsave]⟩
    · exact .inr ⟨_, log, Store.saveAll_of_ok hsave, by simp only [hsave]⟩

/-- **Writing an answer** for which there is room puts out all of it. -/
theorem write_of_unlimited (s : Session) (state : State) (hfile : s.file = none)
    (hflush : state.sink.flushing = none) (hroom : state.sink.room = none) (id : Nat)
    (chunks : List Chunk) :
    ∃ log after, s.write id chunks state = ⟨Answer.text chunks, log, after, none⟩ ∧
      after.sink = state.sink ∧ after.tree = state.tree ∧
      after.summary = { state.summary with
        streams := state.summary.streams + 1
        chunks := state.summary.chunks + chunks.length } := by
  simp only [write, Answer.write_of_unlimited hflush hroom, record, hfile]
  exact ⟨_, _, rfl, rfl, rfl, rfl⟩

/-- **What a session does for one stream**: its script is saved, or the session fails for it; then
its answer is written, and how the writing ends is how the session goes on. The tree is the one that
the store leaves. -/
theorem answer_writes (hfile : s.file = none) (stream : Stream) (rest : List Stream)
    (state : State) :
    (∃ tree log, s.saveAll (stream :: rest) state.tree state.summary.saved = (0, tree) ∧
        s.answer stream state = ⟨[], log, { state with tree }, some (.store .writeFailed)⟩) ∨
      ∃ log after, s.saveAll (stream :: rest) state.tree state.summary.saved =
          ((s.saveAll rest after.tree after.summary.saved).1 + 1,
            (s.saveAll rest after.tree after.summary.saved).2) ∧
        match Answer.write state.sink (stream.convert s.now).chunks with
        | (taken, .error e) => s.answer stream state = ⟨taken, log, after, some e⟩
        | (taken, .ok sink) =>
          s.answer stream state = ⟨taken, log, after, none⟩ ∧ after.sink = sink ∧
            after.summary =
              { streams := state.summary.streams + 1
                chunks := state.summary.chunks + (stream.convert s.now).chunks.length
                saved := state.summary.saved + s.savedOf 1 } := by
  rcases s.save_cases stream rest state with ⟨tree, log, hall, hsave⟩ | ⟨tree, log, hall, hsave⟩
  · exact .inl ⟨tree, (stream.convert s.now).log ++ log, hall, by simp only [answer, hsave]⟩
  · refine .inr ?_
    rcases hwrite : Answer.write state.sink (stream.convert s.now).chunks with ⟨taken, e | sink⟩
    · simp only [answer, hsave, write, hwrite, record, hfile]
      exact ⟨_, _, hall, rfl⟩
    · simp only [answer, hsave, write, hwrite, record, hfile]
      exact ⟨_, _, hall, rfl, rfl, rfl⟩

/-- If there is room for it, all of the answer is written. -/
theorem answer_cases (s : Session) (hfile : s.file = none) (stream : Stream) (rest : List Stream)
    (state : State) (hflush : state.sink.flushing = none) (hroom : state.sink.room = none) :
    (∃ tree log, s.saveAll (stream :: rest) state.tree state.summary.saved = (0, tree) ∧
        s.answer stream state = ⟨[], log, { state with tree }, some (.store .writeFailed)⟩) ∨
      ∃ log after, s.saveAll (stream :: rest) state.tree state.summary.saved =
          ((s.saveAll rest after.tree after.summary.saved).1 + 1,
            (s.saveAll rest after.tree after.summary.saved).2) ∧
        s.answer stream state = ⟨answerTo s.now stream, log, after, none⟩ ∧
        after.sink = state.sink ∧
        after.summary =
          { streams := state.summary.streams + 1
            chunks := state.summary.chunks + (stream.convert s.now).chunks.length
            saved := state.summary.saved + s.savedOf 1 } := by
  have hwrites := answer_writes hfile stream rest state
  rwa [Answer.write_of_unlimited hflush hroom] at hwrites

/-! ### All streams -/

/-- **What a session has done** after these streams, starting from a state. -/
structure Did (s : Session) (streams : List Stream) (state : State) (p : Progress) : Prop where
  output : p.output =
    (streams.take (s.saveAll streams state.tree state.summary.saved).1).flatMap (answerTo s.now)
  tree : p.state.tree = (s.saveAll streams state.tree state.summary.saved).2
  failure : p.failure =
    if (s.saveAll streams state.tree state.summary.saved).1 = streams.length then none
    else some (.store .writeFailed)
  summary : p.failure = none → p.state.summary =
    { streams := state.summary.streams + streams.length
      chunks := state.summary.chunks +
        (streams.map fun stream => (stream.convert s.now).chunks.length).sum
      saved := state.summary.saved + s.savedOf streams.length }

theorem savedOf_add (s : Session) (m n : Nat) : s.savedOf (m + n) = s.savedOf m + s.savedOf n := by
  unfold savedOf
  split <;> rfl

theorem saveAll_nil (s : Session) (tree : FileTree) (saved : Nat) :
    s.saveAll [] tree saved = (0, tree) := by
  unfold saveAll
  cases s.store <;> rfl

/-- **A session does that**, from every state with room for its answers. -/
theorem did_answerAll (s : Session) (hfile : s.file = none) (streams : List (Stream × Log))
    (state : State) (hflush : state.sink.flushing = none) (hroom : state.sink.room = none) :
    s.Did (streams.map (·.1)) state (s.answerAll streams state) := by
  induction streams generalizing state with
  | nil =>
    refine ⟨?_, ?_, ?_, fun _ => ?_⟩
    · simp [answerAll]
    · rw [List.map_nil, saveAll_nil, answerAll]
    · rw [List.map_nil, saveAll_nil, answerAll]; rfl
    · simp [answerAll, savedOf]
  | cons x rest ih =>
    obtain ⟨stream, log⟩ := x
    rw [List.map_cons]
    rcases s.answer_cases hfile stream (rest.map (·.1)) state hflush hroom with
      ⟨tree, said, hall, hanswer⟩ | ⟨said, after, hall, hanswer, hsink, hsummary⟩
    · have hrun : s.answerAll ((stream, log) :: rest) state =
          ⟨[], log ++ said, { state with tree }, some (.store .writeFailed)⟩ := by
        rw [answerAll, hanswer]
      rw [hrun]
      exact ⟨by rw [hall]; rfl, by rw [hall], by rw [hall]; rfl, fun h => by cases h⟩
    · have hrest := ih after (hsink ▸ hflush) (hsink ▸ hroom)
      generalize hq : s.answerAll rest after = q at hrest
      have hrun : s.answerAll ((stream, log) :: rest) state =
          { q with
            output := answerTo s.now stream ++ q.output
            log := log ++ said ++ q.log } := by
        rw [answerAll, hanswer, hq]
      rw [hrun]
      refine ⟨?_, ?_, ?_, fun h => ?_⟩
      · rw [hall, List.take_succ_cons, List.flatMap_cons, ← hrest.output]
      · rw [hall, hrest.tree]
      · rw [hall]
        simp only [hrest.failure, List.length_cons, Nat.add_right_cancel_iff]
      · rw [hrest.summary h, hsummary]
        simp only [List.length_cons, List.map_cons, List.sum_cons, Nat.add_comm (List.length _) 1,
          savedOf_add, Nat.add_assoc]

/-! ### Whole sessions -/

/-- What a session puts out and leaves does not depend on how the reading ended. -/
theorem outcome_fst (p : Progress) (ending : Except SessionError Nat) :
    (p.outcome ending).output = p.output ∧ (p.outcome ending).tree = p.state.tree := by
  unfold Progress.outcome
  cases p.failure with
  | some e => exact ⟨rfl, rfl⟩
  | none => cases ending <;> exact ⟨rfl, rfl⟩

/-- A session succeeds if it got past all streams and the reading came to the end of the input. -/
theorem Did.result {p : Progress} (h : s.Did streams state p) (ending : Except SessionError Nat)
    (summary : Summary) :
    (p.outcome ending).result = .ok summary ↔
      (s.saveAll streams state.tree state.summary.saved).1 = streams.length ∧
        (∃ lines, ending = .ok lines) ∧
        summary =
          { streams := state.summary.streams + streams.length
            chunks := state.summary.chunks +
              (streams.map fun stream => (stream.convert s.now).chunks.length).sum
            saved := state.summary.saved + s.savedOf streams.length } := by
  have hfailure := h.failure
  unfold Progress.outcome
  by_cases hall : (s.saveAll streams state.tree state.summary.saved).1 = streams.length
  · rw [if_pos hall] at hfailure
    rw [hfailure]
    cases ending with
    | error e => simp
    | ok lines => simp [hall, h.summary hfailure, eq_comm]
  · rw [if_neg hall] at hfailure
    simp [hfailure, hall]

/-- **What is left of the scripts** of some streams, in the second tree if the session was to save
them in the first. -/
theorem exists_kept_saveAll {store : Store} (hstore : s.store = some store)
    (streams : List Stream) (tree : FileTree) :
    ∃ kept, store.Kept tree (artifacts s.now (streams.take (s.saveAll streams tree).1)) kept ∧
      ((s.saveAll streams tree).1 = streams.length → (s.saveAll streams tree).2 = kept) ∧
      ∀ stream, streams[(s.saveAll streams tree).1]? = some stream →
        store.Failed (stream.convert s.now).artifact (s.faultsAt (s.saveAll streams tree).1) kept
          (s.saveAll streams tree).2 := by
  simp only [saveAll, hstore, List.drop_zero]
  obtain ⟨kept, hwrote, hall, hfailed⟩ :=
    store.wrote_saveAll s.faults (artifacts s.now streams) tree
  refine ⟨kept, ?_, fun h => hall (h.trans (List.length_map _).symm), fun stream hstream => ?_⟩
  · have hkept := hwrote.kept
    rwa [artifacts, ← List.map_take] at hkept
  · have hartifact := congrArg (Option.map fun x : Stream => (x.convert s.now).artifact) hstream
    exact hfailed _ ((List.getElem?_map ..).trans hartifact)

/-- **A session is the concatenation of independent conversions**, and fails only between streams.
Let the reader yield some streams before the end of its input or its first error, and let `count`
be the number of those before the first whose script cannot be saved, which is all of them if
there is no store. With room for all of its answers, a session writes the answers of the first
`count` streams, one after the other and nothing else; without a store it writes the same for them.
It leaves in the store what saving their scripts leaves there: for each stream the script that was
made last, in the bytes of the last chunk of its answer, and everything else as it was. A script
that cannot be saved changes nothing after that, but for its file if that was opened: then it holds
as much of the script as could be written. A session succeeds if no script could not be saved and
the reading came to the end of the input, and then tells how many streams, chunks and saved scripts
there were. -/
theorem run_concatenates (now : Instant) (store : Option Store)
    (faults : List FileTree.WriteFaults) (fault : IoFault) (tree : FileTree) (reader : Reader) :
    let sink : Sink := { room := none, fault }
    let session : Session := { now, store, faults }
    let streams := reader.streams.1.map (·.1)
    let count := (session.saveAll streams tree).1
    let answered := streams.take count
    let outcome := session.run sink tree reader
    let plain := ({ now } : Session).run sink tree reader
    (count ≤ streams.length ∧ (store = none → count = streams.length)) ∧
    (outcome.output = (answered.map (answerTo now)).flatten ∧
      plain.output = (streams.map (answerTo now)).flatten) ∧
    (store = none → outcome.tree = tree) ∧
    (∀ s, store = some s → ∃ kept, s.Kept tree (artifacts now answered) kept ∧
      (count = streams.length → outcome.tree = kept) ∧
      ∀ stream, streams[count]? = some stream →
        s.Failed (stream.convert now).artifact (session.faultsAt count) kept outcome.tree) ∧
    (∀ stream : Stream, (stream.convert now).artifact.streamId = stream.metadata.id ∧
      (stream.convert now).chunks.getLast?.map (·.content) =
        some (Bytes.ofText (stream.convert now).artifact.script)) ∧
    ∀ summary, outcome.result = .ok summary ↔
      count = streams.length ∧ (∃ lines, reader.streams.2 = .ok lines) ∧
        summary =
          { streams := streams.length
            chunks := (streams.map fun stream => (stream.convert now).chunks.length).sum
            saved := if store.isSome then streams.length else 0 } := by
  intro sink session streams count answered outcome plain
  have hdid := did_answerAll session rfl reader.streams.1 { sink, tree } rfl rfl
  have hplain := did_answerAll { now } rfl reader.streams.1 { sink, tree } rfl rfl
  obtain ⟨houtput, htree⟩ := outcome_fst (session.answerAll reader.streams.1 { sink, tree })
    reader.streams.2
  obtain ⟨hplainOutput, -⟩ := outcome_fst (({ now } : Session).answerAll reader.streams.1
    { sink, tree }) reader.streams.2
  have hleft : outcome.tree = (session.saveAll streams tree).2 := htree.trans hdid.tree
  refine ⟨⟨session.saveAll_le streams tree 0, ?_⟩, ⟨?_, ?_⟩, ?_, ?_, ?_, ?_⟩
  · rintro rfl
    rfl
  · exact houtput.trans (hdid.output.trans (List.flatMap_def ..))
  · refine hplainOutput.trans (hplain.output.trans ?_)
    rw [List.flatMap_def]
    exact congrArg (fun l => (l.map (answerTo now)).flatten) (List.take_length ..)
  · rintro rfl
    exact hleft
  · intro s hstore
    rw [hleft]
    exact exists_kept_saveAll (s := session) hstore streams tree
  · intro stream
    refine ⟨stream.streamId_convert now, ?_⟩
    rw [Conversion.getLast?_chunks]
    rfl
  · intro summary
    have hresult := hdid.result reader.streams.2 summary
    simp only [Nat.zero_add] at hresult
    exact hresult

/-- The line of a stream that has no chunks. -/
def loneLine : Bytes :=
  Bytes.ascii "\x7b\"StreamID\":1,\"ServerHost\":\"h\",\"ServerPort\":80\x7d\n"

/-- A store in which there is a script for that stream. -/
def usedTree : FileTree where
  nodes := [(["d"], .directory), (["d", "stream-1.py"], .file (Bytes.ofText "old") true)]
  current := []

/-- **What a failed saving and a file for the answers can change.** If a script was written and its
file cannot be made executable, the session fails before any answer, but the file of its stream is
no longer what it was. If the answers go to the file of a script, the session succeeds, but that
file does not hold the script. -/
theorem run_in_usedTree :
    let store : Store := ⟨"d"⟩
    let place : FilePlace := ["d", "stream-1.py"]
    let denied : FileTree.WriteFaults :=
      { permissions := some (.other "Operation not permitted (os error 1)") }
    let reader := Reader.ofBytes loneLine
    let failed := ({ now := ⟨0, 0⟩, store, faults := [denied] } : Session).run {} usedTree reader
    let mixed := ({ now := ⟨0, 0⟩, store, file := some place } : Session).run {} usedTree reader
    usedTree.placeForFile (store.path 1) = .ok place ∧
    (failed.result = .error (.store .writeFailed) ∧ failed.output = [] ∧
      failed.tree.get? place ≠ usedTree.get? place) ∧
    mixed.result = .ok { streams := 1, chunks := 1, saved := 1 } ∧
      ∀ x ∈ reader.streams.1, mixed.tree.get? place ≠
        some (.file (Bytes.ofText (x.1.convert ⟨0, 0⟩).artifact.script) true) := by
  decide +kernel

end Session

end HttpReplay
