import HttpReplay.Capture.Stream
import HttpReplay.Http.Parse
import HttpReplay.Http.Pending
import HttpReplay.Log

/-!
# Dispatching a stream

A stream is read chunk by chunk. Each direction has its own pending bytes; whenever a chunk
arrives, as many whole messages as possible are read off the bytes of its direction, so
that requests and responses come out in the order of capture. Each message is an event. At
the end of the stream what is pending is read once more, the client's first.

Bytes that are no message make their direction give up: the chunks that hold them, and all
later chunks of the direction, are left over and come out unchanged. A response with status
101 makes both directions give up, because what follows is another protocol.

The body of a response depends on the method of its request, so the methods of requests
whose final response has not come yet stand in a queue.

* `HttpReplay.Http.Dispatch.feed` takes a chunk, `HttpReplay.Http.Dispatch.finish` the end
  of the stream, and `HttpReplay.Http.dispatch` a whole stream;
* `HttpReplay.Http.Dispatch.kept` runs a handler over the events and collects the chunks
  that it keeps and those that were left over.
-/

namespace HttpReplay.Http

/-! ### Events -/

/-- A message that was read: the chunk in which it starts, the bytes of its head and of its
body as they stand on the wire, and what it says. -/
inductive Event
  | request (start : Nat) (head raw : Bytes) (message : Request)
  | response (start : Nat) (head raw : Bytes) (message : Response)
  deriving Repr, DecidableEq

namespace Event

/-- The chunk in which the message starts. -/
def start : Event → Nat
  | .request start _ _ _ => start
  | .response start _ _ _ => start

/-- The bytes that the message took off the wire. -/
def wire : Event → Bytes
  | .request _ head raw _ => head ++ raw
  | .response _ head raw _ => head ++ raw

/-- The direction in which the message went. -/
def direction : Event → Direction
  | .request .. => .clientToServer
  | .response .. => .serverToClient

/-- The request with the bytes it was read from, if the message is one. -/
def request? : Event → Option (Taken Request)
  | .request _ head raw message => some ⟨head, raw, message⟩
  | .response .. => none

/-- The response with the bytes it was read from, if the message is one. -/
def response? : Event → Option (Taken Response)
  | .request .. => none
  | .response _ head raw message => some ⟨head, raw, message⟩

/-- A response that is the last one to its request. -/
def isFinal : Event → Bool
  | .request .. => false
  | .response _ _ _ message => 200 ≤ message.status

/-- The bytes that the messages of one direction took off the wire. -/
def wireOf (d : Direction) (events : List Event) : Bytes :=
  (events.filter (·.direction = d)).flatMap wire

end Event

/-! ### The state of a run -/

/-- **Where a run stands.** -/
structure Dispatch where
  client : Pending := {}
  server : Pending := {}
  /-- The methods of requests whose final response has not been seen, the oldest first. -/
  methods : List String := []
  /-- The messages so far. -/
  events : List Event := []
  /-- The chunks left over so far, in increasing order. -/
  leftOver : List Nat := []
  log : Log := []
  deriving Repr, DecidableEq

/-- Add a number to an increasing list, unless it is there. -/
def insertAscending (n : Nat) : List Nat → List Nat
  | [] => [n]
  | m :: rest =>
    if n < m then n :: m :: rest
    else if n = m then m :: rest
    else m :: insertAscending n rest

namespace Dispatch

/-- The pending bytes of a direction. -/
def pending (s : Dispatch) : Direction → Pending
  | .clientToServer => s.client
  | .serverToClient => s.server

/-- Replace the pending bytes of a direction. -/
def setPending (s : Dispatch) (p : Pending) : Direction → Dispatch
  | .clientToServer => { s with client := p }
  | .serverToClient => { s with server := p }

/-- Leave chunks over. -/
def leave (s : Dispatch) (chunks : List Nat) : Dispatch :=
  { s with leftOver := chunks.foldl (fun list n => insertAscending n list) s.leftOver }

/-- Add to the log. -/
def note (s : Dispatch) (severity : Log.Severity) (message : String) : Dispatch :=
  { s with log := s.log ++ Log.one severity message }

/-- Give a direction up for a reason. -/
def giveUp (id : Nat) (d : Direction) (why : Reason) (s : Dispatch) : Dispatch :=
  let s := s.note .warn
    s!"[{id}] {d.label} data is not HTTP/1.x ({why.message}); keeping it unchanged"
  let p := s.pending d
  (s.setPending p.giveUp d).leave p.chunksLeft

/-! ### Taking messages -/

/-- Take a request off the client's bytes. -/
def takeRequest (id start headLength bodyLength : Nat) (message : Request) (s : Dispatch) :
    Dispatch :=
  let s := s.note .trace
    (s!"[{id}] request {message.method} {message.path} " ++
      s!"({headLength} header bytes, {bodyLength} body bytes)")
  let buffer := s.client.buffer
  { s with
    events := s.events ++
      [.request start (buffer.take headLength) ((buffer.drop headLength).take bodyLength) message]
    methods := s.methods ++ [message.method]
    client := s.client.consume (headLength + bodyLength) }

/-- Take a response off the server's bytes. A final response takes its request's method off
the queue. -/
def takeResponse (id start headLength bodyLength : Nat) (message : Response) (s : Dispatch) :
    Dispatch :=
  let s := s.note .trace
    (s!"[{id}] response {message.status} {message.reason} " ++
      s!"({headLength} header bytes, {bodyLength} body bytes)")
  let buffer := s.server.buffer
  { s with
    events := s.events ++
      [.response start (buffer.take headLength) ((buffer.drop headLength).take bodyLength) message]
    methods := if 200 ≤ message.status then s.methods.drop 1 else s.methods
    server := s.server.consume (headLength + bodyLength) }

/-- Read one request; the answer also says whether there may be another. -/
def nextRequest (id : Nat) (atEnd : Bool) (start : Nat) (s : Dispatch) : Dispatch × Bool :=
  match parseRequest atEnd s.client.buffer with
  | .complete headLength bodyLength message =>
    (s.takeRequest id start headLength bodyLength message, true)
  | .incomplete =>
    (if atEnd then s.giveUp id .clientToServer .truncatedRequest else s, false)
  | .invalid why => (s.giveUp id .clientToServer why, false)

/-- Read one response; the answer also says whether there may be another. -/
def nextResponse (id : Nat) (atEnd : Bool) (start : Nat) (s : Dispatch) : Dispatch × Bool :=
  match parseResponse atEnd s.methods.head? s.server.buffer with
  | .complete headLength bodyLength message =>
    let s := s.takeResponse id start headLength bodyLength message
    if message.status = 101 then
      ((s.giveUp id .serverToClient .switched).giveUp id .clientToServer .switched, false)
    else (s, true)
  | .incomplete =>
    (if atEnd then s.giveUp id .serverToClient .truncatedResponse else s, false)
  | .invalid why => (s.giveUp id .serverToClient why, false)

/-- Read one message of a direction. -/
def next (id : Nat) (d : Direction) (atEnd : Bool) (start : Nat) (s : Dispatch) :
    Dispatch × Bool :=
  match d with
  | .clientToServer => s.nextRequest id atEnd start
  | .serverToClient => s.nextResponse id atEnd start

theorem length_drop_lt {bytes : Bytes} {n : Nat} (hb : bytes ≠ []) (hn : 0 < n) :
    (bytes.drop n).length < bytes.length := by
  have := List.length_pos_iff.mpr hb
  rw [List.length_drop]
  omega

/-- A message after which there may be another has taken a byte of its direction. -/
theorem pending_lt_of_next {id start : Nat} {d : Direction} {atEnd : Bool} {s after : Dispatch}
    (h : s.next id d atEnd start = (after, true)) (hne : (s.pending d).buffer ≠ []) :
    (after.pending d).buffer.length < (s.pending d).buffer.length := by
  cases d with
  | clientToServer =>
    simp only [next, nextRequest] at h
    split at h
    · rename_i n b m hp
      have := takesByte_parseRequest _ _ n b m hp hne
      simp only [Prod.mk.injEq, and_true] at h
      rw [← h]
      exact length_drop_lt hne (by omega)
    · simp at h
    · simp at h
  | serverToClient =>
    simp only [next, nextResponse] at h
    split at h
    · rename_i n b m hp
      have := takesByte_parseResponse _ _ _ n b m hp hne
      split at h
      · simp at h
      · simp only [Prod.mk.injEq, and_true] at h
        rw [← h]
        exact length_drop_lt hne (by omega)
    · simp at h
    · simp at h

/-- **Read messages of a direction** until there is none. -/
def drain (id : Nat) (d : Direction) (atEnd : Bool) (s : Dispatch) : Dispatch :=
  if _hb : (s.pending d).gaveUp ∨ (s.pending d).buffer = [] then s
  else
    match (s.pending d).startChunk? with
    | none => s
    | some start =>
      match _h : s.next id d atEnd start with
      | (after, true) => after.drain id d atEnd
      | (after, false) => after
termination_by (s.pending d).buffer.length
decreasing_by exact pending_lt_of_next _h fun hb => _hb (.inr hb)

/-! ### Whole streams -/

/-- Take the chunk at a position of the stream. -/
def feed (id : Nat) (s : Dispatch) (index : Nat) (chunk : Chunk) : Dispatch :=
  let p := s.pending chunk.direction
  if p.gaveUp then s.leave [index]
  else (s.setPending (p.push index chunk.content) chunk.direction).drain id chunk.direction false

/-- Take chunks from a position of the stream on. -/
def feedFrom (id : Nat) (s : Dispatch) (index : Nat) : List Chunk → Dispatch
  | [] => s
  | chunk :: rest => (s.feed id index chunk).feedFrom id (index + 1) rest

/-- Take the end of the stream. -/
def finish (id : Nat) (s : Dispatch) : Dispatch :=
  (s.drain id .clientToServer true).drain id .serverToClient true

end Dispatch

/-- **Dispatch a stream.** -/
def dispatch (stream : Stream) : Dispatch :=
  let id := stream.metadata.id
  let opening : Dispatch :=
    { log := Log.one .debug s!"[{id}] dispatching {stream.chunks.length} chunk(s)" }
  (opening.feedFrom id 0 stream.chunks).finish id

/-! ### Handlers -/

/-- What is done with each message: from a state and the chunk in which the message starts
to a new state and the chunks to keep. -/
abbrev Handler (σ : Type) := σ → Chunk → Event → σ × List Chunk

namespace Dispatch

variable {σ : Type}

/-- Hand events to a handler one by one, and collect the chunks that it keeps. -/
def handle (handler : Handler σ) (chunks : List Chunk) : σ → List Event → σ × List Chunk
  | state, [] => (state, [])
  | state, event :: rest =>
    match chunks[event.start]? with
    | none => handle handler chunks state rest
    | some chunk =>
      let (state, kept) := handler state chunk event
      let (state, more) := handle handler chunks state rest
      (state, kept ++ more)

/-- **The outcome of a run with a handler**: its last state, the chunks that it kept, and
after them the chunks that were left over. -/
def kept (handler : Handler σ) (state : σ) (stream : Stream) (s : Dispatch) : σ × List Chunk :=
  let (state, chunks) := handle handler stream.chunks state s.events
  (state, chunks ++ s.leftOver.filterMap (stream.chunks[·]?))

end Dispatch

end HttpReplay.Http
