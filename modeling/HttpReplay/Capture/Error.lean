import HttpReplay.Base64
import HttpReplay.Json.Fault
import HttpReplay.Store
import HttpReplay.Files.Fault

/-!
# Failures of a session

A session reads streams, converts them and writes the answers. It ends at the first line that
cannot be read, at the first answer that cannot be written, and at the first script that
cannot be saved. Lines count from one; the record of an answer belongs to no line, and its
failure names the line zero.
-/

namespace HttpReplay

/-- **Why a session failed.** -/
inductive SessionError
  /-- The input could not be read, or the end of a line could not be written. -/
  | io (fault : IoFault)
  /-- A line is not the JSON it should be. -/
  | line (number : Nat) (text : String) (fault : Json.Fault)
  /-- The record of a chunk could not be written. -/
  | record (fault : IoFault)
  /-- The content of a chunk is not base64. -/
  | content (number : Nat) (error : Base64.Error)
  /-- A script could not be saved. -/
  | store (error : StoreError)
  deriving Repr, DecidableEq

namespace SessionError

/-- The wording of the cause of a failure. -/
def cause : SessionError → String
  | io fault => fault.message
  | line _ text fault => fault.message text
  | record fault => fault.message
  | content _ error => error.message
  | store error => error.message

/-- The wording of a failure. -/
def message (e : SessionError) : String :=
  match e with
  | io _ => s!"Harness IO error: {e.cause}"
  | line number .. => s!"Malformed JSON on line {number}: {e.cause}"
  | record _ => s!"Malformed JSON on line {0}: {e.cause}"
  | content number _ => s!"Malformed chunk content on line {number}: {e.cause}"
  | store _ => s!"Script storage error: {e.cause}"

end SessionError

end HttpReplay
