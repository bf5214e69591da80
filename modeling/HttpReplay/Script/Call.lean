import HttpReplay.Http.Message
import HttpReplay.Script.Host
import HttpReplay.Script.Literal
import HttpReplay.Text.Case

/-!
# Calls of the script

Each request is one line of the script: a call on the session of the `requests` library.
The methods that the library has a function for are called by that function; any other
method is an argument. The URL is a formatted string around the address; header fields and
body follow where there are any.
-/

namespace HttpReplay

/-- How a call names its method. -/
inductive CallForm
  /-- A function of its own, named by the method in lower case. -/
  | shorthand (name : String)
  /-- The general function, with the method as it was captured. -/
  | generic (method : String)
  deriving Repr, DecidableEq

namespace CallForm

/-- The methods that have a function of their own. -/
def shorthands : List String := ["get", "post", "put", "delete", "head", "patch"]

/-- The form of a call. The case of letters does not matter. -/
def ofMethod (method : String) : CallForm :=
  let lower := Text.lowercase method.toList
  match shorthands.find? (·.toList == lower) with
  | some name => .shorthand name
  | none => .generic method

end CallForm

namespace Request

/-- The name of the session in the script. -/
def session : String := "s"

/-- The beginning of the call, up to the URL. -/
def opening (form : CallForm) : String :=
  match form with
  | .shorthand name => s!"r = {session}.{name}("
  | .generic method => s!"r = {session}.request({Literal.text method}, "

/-- The URL: a formatted string in double quotes. -/
def url (path : String) (host : HostTemplate) : String :=
  "f\"http://" ++ host.render ++ Literal.template path ++ "\""

/-- The header fields, where there are any. -/
def headerArgument (headers : Headers) : String :=
  if headers.isEmpty then "" else ", headers=" ++ Literal.dict headers.entries

/-- The body, where there is one. -/
def bodyArgument (body : Bytes) : String :=
  if body.isEmpty then "" else ", data=" ++ Literal.bytes body

/-- **The line of a request.** -/
def render (r : Request) (host : HostTemplate) : String :=
  opening (CallForm.ofMethod r.method) ++ url r.path host ++ headerArgument r.headers ++
    bodyArgument r.body ++ ")\n"

end Request

end HttpReplay
