import HttpReplay.Http.Dispatch
import HttpReplay.Script.Build

/-!
# Converting a stream

A stream is converted by dispatching it and adding every request to its script. The answer
is the chunks that were no HTTP, unchanged, and behind them the script as one more chunk.
The script counts as captured when the first chunk was; a stream without chunks takes the
time that it is given.
-/

namespace HttpReplay

/-- The name under which the conversion is known. -/
def converterName : String := "pythonrequests"

/-- The chunks of an answer: those that were kept, and the script. -/
def assemble (kept : List Chunk) (artifact : Artifact) : List Chunk := kept ++ [artifact.toChunk]

/-- What is made of a stream. -/
structure Conversion where
  /-- The chunks that were no HTTP. -/
  kept : List Chunk
  artifact : Artifact
  log : Log
  deriving Repr

namespace Conversion

/-- The handler of a conversion adds every request to the script and keeps nothing. -/
def scripting : Http.Handler Script := fun script _ event =>
  match event with
  | .request _ _ _ message => (script.push message, [])
  | .response .. => (script, [])

/-- The chunks of the answer. -/
def chunks (c : Conversion) : List Chunk := assemble c.kept c.artifact

end Conversion

/-- **Convert a stream**; `now` is the time of a stream without chunks. -/
def Stream.convert (now : Instant) (stream : Stream) : Conversion :=
  let m := stream.metadata
  let opening := Script.opening m
  let run := Http.dispatch stream
  let (script, kept) := run.kept Conversion.scripting opening stream
  let artifact := script.finish (stream.firstTime?.getD now)
  let before := Log.one .debug
    s!"[{m.id}] rendering against {m.serverHost}:{m.serverPort} as {opening.host.render}"
  let after := Log.one .info
    (s!"[{m.id}] rendered {artifact.requests} request(s) into a " ++
      s!"{artifact.script.utf8ByteSize} byte script")
  { kept, artifact, log := before ++ run.log ++ after }

end HttpReplay
