import HttpReplay.Capture.Answer
import HttpReplay.Capture.Reader
import HttpReplay.Convert
import HttpReplay.Files.Input
import HttpReplay.Store

/-!
# Sessions

A session reads streams one after the other. Each is converted, its script is saved if there
is a store, and its answer is written; then comes the next. The first failure ends the session,
and what was done until then stays done.

The answers may go to a file of the tree in which the scripts are saved. They are written there
from the start of the file on, whatever else happens to the file in between.

* `HttpReplay.Session.answer` is what a session does for one stream;
* `HttpReplay.Session.run` is a whole session;
* `HttpReplay.Session.runFile` is a whole session that reads a file of the tree.
-/

namespace HttpReplay

/-- What a session did. -/
structure Summary where
  streams : Nat := 0
  chunks : Nat := 0
  saved : Nat := 0
  deriving Repr, DecidableEq

/-- **A session**: what stays the same from stream to stream. -/
structure Session where
  /-- The time of the script of a stream without chunks. -/
  now : Instant
  /-- Where scripts are saved. -/
  store : Option Store := none
  /-- The file that the answers go to. -/
  file : Option FilePlace := none
  /-- What goes wrong with the files of the scripts, in the order in which they are saved. -/
  faults : List FileTree.WriteFaults := []
  deriving Repr

namespace Session

/-- What changes from stream to stream. -/
structure State where
  sink : Sink
  tree : FileTree
  /-- How many bytes of answers were written. -/
  written : Nat := 0
  summary : Summary := {}
  deriving Repr

/-- What was done for some streams. -/
structure Progress where
  output : Bytes
  log : Log
  state : State
  failure : Option SessionError
  deriving Repr

/-- What goes wrong with the file of a script, if so many were saved before. -/
def faultsAt (s : Session) (saved : Nat) : FileTree.WriteFaults := s.faults[saved]?.getD {}

/-- Save a script, if there is a store. -/
def save (s : Session) (a : Artifact) (state : State) : Option SessionError × State × Log :=
  match s.store with
  | none => (none, state, [])
  | some store =>
    match store.save a state.tree (s.faultsAt state.summary.saved) with
    | (.error e, tree, log) => (some (.store e), { state with tree }, log)
    | (.ok _, tree, log) =>
      let summary := { state.summary with saved := state.summary.saved + 1 }
      (none, { state with tree, summary }, log)

/-- Put answers into the file that they go to. -/
def record (s : Session) (bytes : Bytes) (state : State) : State :=
  let tree :=
    match s.file with
    | none => state.tree
    | some place => state.tree.writeAt place state.written bytes
  { state with tree, written := state.written + bytes.length }

/-- Write an answer. -/
def write (s : Session) (id : Nat) (chunks : List Chunk) (state : State) : Progress :=
  let (output, result) := Answer.write state.sink chunks
  let state := s.record output state
  match result with
  | .error e => ⟨output, [], state, some e⟩
  | .ok sink =>
    let summary := { state.summary with
      streams := state.summary.streams + 1
      chunks := state.summary.chunks + chunks.length }
    let log := Log.one .debug s!"[{id}] wrote {chunks.length} chunk(s)"
    ⟨output, log, { state with sink, summary }, none⟩

/-- **Convert one stream**, save its script and write its answer. -/
def answer (s : Session) (stream : Stream) (state : State) : Progress :=
  let c := stream.convert s.now
  match s.save c.artifact state with
  | (some e, state, log) => ⟨[], c.log ++ log, state, some e⟩
  | (none, state, log) =>
    let p := s.write stream.metadata.id c.chunks state
    { p with log := c.log ++ log ++ p.log }

/-- Answer streams up to the first failure. With each comes what the log says of its reading. -/
def answerAll (s : Session) : List (Stream × Log) → State → Progress
  | [], state => ⟨[], [], state, none⟩
  | (stream, log) :: rest, state =>
    let p := s.answer stream state
    match p.failure with
    | some _ => { p with log := log ++ p.log }
    | none =>
      let q := s.answerAll rest p.state
      { q with output := p.output ++ q.output, log := log ++ p.log ++ q.log }

/-- What a session leaves. -/
structure Outcome where
  output : Bytes
  tree : FileTree
  log : Log
  result : Except SessionError Summary

/-- What a session leaves that did so much, and whose reading came to such an end. -/
def Progress.outcome (p : Progress) (ending : Except SessionError Nat) : Outcome :=
  let opening := Log.one .info s!"Running converter {converterName}"
  let summary := p.state.summary
  match p.failure, ending with
  | some e, _ => ⟨p.output, p.state.tree, opening ++ p.log, .error e⟩
  | none, .error e => ⟨p.output, p.state.tree, opening ++ p.log, .error e⟩
  | none, .ok lines =>
    let closing := Log.one .info s!"Converted {summary.streams} stream(s), {lines} line(s) read"
    ⟨p.output, p.state.tree, opening ++ p.log ++ closing, .ok summary⟩

/-- **Run a session** over the streams of a reader. -/
def run (s : Session) (sink : Sink) (tree : FileTree) (reader : Reader) : Outcome :=
  let (streams, ending) := reader.streams
  (s.answerAll streams { sink, tree }).outcome ending

/-! ### Reading from the tree

The streams may come from a file of the tree in which the scripts are saved, and a script may be
saved in that very file. So the file is looked at again for each stream. -/

/-- Answer the streams of a file from some lines on, and tell how the reading ended. After so
many streams the rest of the file is taken as it stands. -/
def follow (s : Session) : Nat → FileInput → Nat → State → Progress × Except SessionError Nat
  | n, input, lines, state =>
    let ahead := input.ahead state.tree
    let reader : Reader := { Reader.ofBytes ahead with count := lines }
    match n with
    | 0 =>
      let (streams, ending) := reader.streams
      (s.answerAll streams state, ending)
    | n + 1 =>
      match reader.next with
      | (.error e, _, _) => (⟨[], [], state, none⟩, .error e)
      | (.ok none, r, _) => (⟨[], [], state, none⟩, .ok r.count)
      | (.ok (some stream), r, log) =>
        let p := s.answer stream state
        match p.failure with
        | some _ => ({ p with log := log ++ p.log }, .ok r.count)
        | none =>
          let input := input.advance state.tree (min ahead.length (reader.size - r.size))
          let (q, ending) := s.follow n input r.count p.state
          ({ q with output := p.output ++ q.output, log := log ++ p.log ++ q.log }, ending)

/-- **Run a session** over the streams of a file of the tree. No line of a script begins a
stream, so there are no more streams than lines at the start. -/
def runFile (s : Session) (sink : Sink) (tree : FileTree) (place : FilePlace) : Outcome :=
  let input : FileInput := { place }
  let reader := Reader.ofBytes (input.ahead tree)
  if s.store.isNone then s.run sink tree reader
  else
    let (p, ending) := s.follow (reader.unread.length + 1) input 0 { sink, tree }
    p.outcome ending

end Session

end HttpReplay
