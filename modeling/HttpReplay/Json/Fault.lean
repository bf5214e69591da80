import HttpReplay.Bytes
import HttpReplay.Text.Found
import HttpReplay.Text.Space

/-!
# Faults of JSON text

A line of the protocol is one JSON value of a known shape. It can fail to be JSON, or be
JSON of another shape; either way the fault is found at a place in the text, and the place
is part of the message.

Reading is from the front of a list of characters, so a fault remembers how many bytes of
the text were still unread when it was found. Only the message needs the line and the
column, and `HttpReplay.Json.Fault.place` works them out from the whole text.

* `HttpReplay.Json.Cause` lists what can be wrong, `HttpReplay.Json.Cause.message` words
  it;
* `HttpReplay.Json.here` and `HttpReplay.Json.past` raise a fault at the first unread
  character or just behind its first byte.
-/

namespace HttpReplay.Json

/-- **What is wrong with a text.** -/
inductive Cause
  | endInList
  | endInObject
  | endInText
  | endInValue
  | colonExpected
  | listEndExpected
  | objectEndExpected
  | wordExpected
  | valueExpected
  | badEscape
  | badNumber
  | numberTooLarge
  | controlCharacter
  | nameExpected
  | loneSurrogate
  | trailingComma
  | trailingCharacters
  | cutSurrogatePair
  /-- A value of another kind. -/
  | wrongKind (found : Found) (expected : String)
  /-- A value out of its range. -/
  | wrongValue (found : Found) (expected : String)
  | missing (name : String)
  | duplicate (name : String)
  /-- A list with too few elements. -/
  | tooFew (count : Nat) (expected : String)
  /-- A name that is none of those there are. -/
  | unknownName (name : String) (first second : String)
  /-- A text that is refused for a reason of its own. -/
  | badText (message : String)
  deriving Repr, DecidableEq

open Found (marked)

/-- The wording of a cause. -/
def Cause.message : Cause → String
  | .endInList => "EOF while parsing a list"
  | .endInObject => "EOF while parsing an object"
  | .endInText => "EOF while parsing a string"
  | .endInValue => "EOF while parsing a value"
  | .colonExpected => "expected " ++ marked ":"
  | .listEndExpected => "expected " ++ marked "," ++ " or " ++ marked "]"
  | .objectEndExpected => "expected " ++ marked "," ++ " or " ++ marked "\x7d"
  | .wordExpected => "expected ident"
  | .valueExpected => "expected value"
  | .badEscape => "invalid escape"
  | .badNumber => "invalid number"
  | .numberTooLarge => "number out of range"
  | .controlCharacter =>
    "control character (\\u0000-\\u001F) found while parsing a string"
  | .nameExpected => "key must be a string"
  | .loneSurrogate => "lone leading surrogate in hex escape"
  | .trailingComma => "trailing comma"
  | .trailingCharacters => "trailing characters"
  | .cutSurrogatePair => "unexpected end of hex escape"
  | .wrongKind found expected => found.refusal expected
  | .wrongValue found expected => "invalid value: " ++ found.message ++ ", expected " ++ expected
  | .missing name => "missing field " ++ marked name
  | .duplicate name => "duplicate field " ++ marked name
  | .tooFew count expected => s!"invalid length {count}, expected {expected}"
  | .unknownName name first second =>
    "unknown variant " ++ marked name ++ ", expected " ++ marked first ++ " or " ++ marked second
  | .badText message => message

/-- **A fault**: its cause, and how many bytes were unread when it was found. -/
structure Fault where
  cause : Cause
  unread : Nat
  deriving Repr, DecidableEq

namespace Fault

/-- The line and the column of a fault in a text. Lines count from one; the column is the
number of bytes of the line that were read. -/
def place (text : String) (fault : Fault) : Nat × Nat :=
  let bytes := Bytes.ofText text
  let read := bytes.take (bytes.length - fault.unread)
  (1 + read.count Byte.lf, (read.reverse.takeWhile (· != Byte.lf)).length)

/-- The wording of a fault in a text. -/
def message (text : String) (fault : Fault) : String :=
  let (line, column) := fault.place text
  s!"{fault.cause.message} at line {line} column {column}"

end Fault

/-! ### Raising faults -/

variable {α : Type}

/-- A fault before the first unread character. -/
def here (cause : Cause) (cs : List Char) : Except Fault α :=
  .error ⟨cause, Text.byteLength cs⟩

/-- A fault behind the first byte of the first unread character. -/
def past (cause : Cause) (cs : List Char) : Except Fault α :=
  .error ⟨cause, Text.byteLength cs - 1⟩

/-! ### Blanks and words -/

/-- The characters that may stand between the parts of a value. -/
def isBlank (c : Char) : Bool := c == ' ' || c == '\n' || c == '\t' || c == '\r'

/-- Drop the blanks in front. -/
def skipBlanks (cs : List Char) : List Char := cs.dropWhile isBlank

/-- Read the characters of a word. -/
def word : List Char → List Char → Except Fault (List Char)
  | [], cs => .ok cs
  | _ :: _, [] => here .endInValue []
  | e :: es, c :: cs => if c = e then word es cs else past .wordExpected (c :: cs)

end HttpReplay.Json
