import HttpReplay.Bytes
import HttpReplay.Http.Headers

/-!
# HTTP messages

A request and a response as the rest of the library sees them: text taken off the wire,
header fields as a map, and the body without its transfer coding. The bytes a message was
read from are not part of it.
-/

namespace HttpReplay

/-- A message of the client. -/
structure Request where
  method : String
  path : String
  /-- The minor version: one for HTTP/1.1, zero for HTTP/1.0. -/
  version : Nat := 1
  headers : Headers := {}
  body : Bytes := []
  deriving Repr, DecidableEq

/-- A message of the server. -/
structure Response where
  /-- The minor version: one for HTTP/1.1, zero for HTTP/1.0. -/
  version : Nat := 1
  status : Nat
  reason : String
  headers : Headers := {}
  body : Bytes := []
  deriving Repr, DecidableEq

/-- A header field as it stands on the wire: its name, and its value without the blanks
around it. -/
structure Field where
  name : Bytes
  value : Bytes
  deriving Repr, DecidableEq

namespace Field

/-- Does a field have this name, whatever the case of its letters? -/
def isNamed (f : Field) (name : String) : Bool := Bytes.eqIgnoringCase f.name (Bytes.ascii name)

/-- The name and the value as text. -/
def toText (f : Field) : String × String := (Bytes.latin1 f.name, Bytes.latin1 f.value)

/-- The map that the fields of a head leave behind. -/
def toHeaders (fields : List Field) : Headers := Headers.ofList (fields.map toText)

end Field

end HttpReplay
