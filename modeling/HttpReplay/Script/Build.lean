import HttpReplay.Capture.Stream
import HttpReplay.Script.Call

/-!
# Scripts

The script of a stream is a preamble and one line for each request. The preamble imports
what the script needs, takes the address of the server from the command line, names the
recorded host and the stream in comments, and opens a session. The recorded host stands in
its comment as a literal, so that nothing in it can end the comment.

* `HttpReplay.Script.opening` is the script without requests, `HttpReplay.Script.push`
  adds one, `HttpReplay.Script.ofRequests` adds a list of them;
* `HttpReplay.Artifact` is a finished script, and `HttpReplay.Artifact.toChunk` the chunk
  as which it travels.
-/

namespace HttpReplay

/-- A finished script: the stream it replays, its text, how many requests it makes, and the
time it counts as captured at. -/
structure Artifact where
  streamId : Nat
  script : String
  requests : Nat
  time : Instant
  deriving Repr, DecidableEq

/-- The chunk as which a script travels: what a client would send. -/
def Artifact.toChunk (a : Artifact) : Chunk :=
  ⟨.clientToServer, Bytes.ofText a.script, a.time⟩

/-- A script that requests are being added to. -/
structure Script where
  streamId : Nat
  host : HostTemplate
  text : String
  requests : Nat
  deriving Repr, DecidableEq

namespace Script

/-- The preamble of a script. -/
def preamble (m : Metadata) : String :=
  "#!/usr/bin/env python3\nimport requests\nimport sys\n\nIP = sys.argv[1]\n# IP = " ++
    Literal.text m.serverHost ++ "\n\n# Generated from stream " ++ toString m.id ++ "\n" ++
    Request.session ++ " = requests.Session()\n\n"

/-- The script of a stream without requests. -/
def opening (m : Metadata) : Script where
  streamId := m.id
  host := HostTemplate.ofHost m.serverHost m.serverPort
  text := preamble m
  requests := 0

/-- Add a request. -/
def push (s : Script) (r : Request) : Script :=
  { s with text := s.text ++ r.render s.host, requests := s.requests + 1 }

/-- The script of a stream with these requests. -/
def ofRequests (m : Metadata) (requests : List Request) : Script :=
  requests.foldl push (opening m)

/-- Finish a script. -/
def finish (s : Script) (time : Instant) : Artifact := ⟨s.streamId, s.text, s.requests, time⟩

end Script

end HttpReplay
