import HttpReplay.Json.Skip
import HttpReplay.Json.Value

/-!
# Lists and objects of known members

A record is an object whose members are known by name, in any order, or a list of their
values in the order of the record. Members with other names are skipped. While the members
are read, the record is a draft that may still lack some of them.

* `HttpReplay.Json.members` reads the members of an object onto a draft;
* `HttpReplay.Json.element` reads one element of a list, if there is one more;
* `HttpReplay.Json.record` reads a record in either form;
* `HttpReplay.Json.renderObject` writes one as an object.

Faults of a record as a whole, such as a missing member, count as found behind its closing
bracket.
-/

namespace HttpReplay.Json

variable {α σ : Type}

/-! ### Objects -/

/-- What is to be done with a member of a given name. -/
inductive Member (σ : Type)
  /-- Nobody asks for it. -/
  | skip
  /-- It was there before. -/
  | duplicate (name : String)
  /-- Its value is read onto the draft. -/
  | read (value : List Char → Except Fault (σ × List Char))

/-- A member that may stand once: its name, what is known of it, the reader of its value, and
the draft with it. -/
def Member.once (name : String) (known : Option α)
    (value : List Char → Except Fault (α × List Char)) (set : α → σ) : Member σ :=
  if known.isSome then .duplicate name
  else .read fun cs => do
    let (a, rest) ← value cs
    return (set a, rest)

/-- The text behind a closing bracket, if that comes next. -/
def behind (close : Char) (cs : List Char) : List Char :=
  match skipBlanks cs with
  | [] => []
  | c :: rest => if c = close then rest else c :: rest

/-- The quote before the name of the next member has been read, or there is no next member. -/
inductive NextName
  | name (cs : List Char)
  | none (cs : List Char)

/-- Look for the name of the next member. -/
def nextName (isFirst : Bool) (cs : List Char) : Except Fault NextName :=
  match skipBlanks cs with
  | [] => past .endInObject []
  | c :: rest =>
    if c = '}' then .ok (.none (c :: rest))
    else if isFirst then
      if c = '\x22' then .ok (.name rest) else past .nameExpected (c :: rest)
    else if c = ',' then
      match skipBlanks rest with
      | [] => past .endInValue []
      | d :: rest =>
        if d = '\x22' then .ok (.name rest)
        else if d = '}' then past .trailingComma (d :: rest)
        else past .nameExpected (d :: rest)
    else past .objectEndExpected (c :: rest)

/-- The colon behind a name. -/
def colon (cs : List Char) : Except Fault (List Char) :=
  match skipBlanks cs with
  | [] => past .endInObject []
  | c :: rest => if c = ':' then .ok rest else past .colonExpected (c :: rest)

/-- Read one member whose opening quote has been read. -/
def member (step : σ → String → Member σ) (draft : σ) (cs : List Char) :
    Except Fault (σ × List Char) := do
  let (name, rest) ← textTail cs
  match step draft (String.ofList name) with
  | .duplicate name => here (.duplicate name) (behind '}' rest)
  | .read value => value (← colon rest)
  | .skip => return (draft, ← skipValue (← colon rest))

/-- Read members onto a draft, at most so many, up to the closing bracket. -/
def membersUpTo (step : σ → String → Member σ) :
    Nat → Bool → σ → List Char → Except Fault (σ × List Char)
  | 0, _, draft, cs => .ok (draft, cs)
  | n + 1, isFirst, draft, cs => do
    match ← nextName isFirst cs with
    | .none cs => return (draft, cs)
    | .name cs =>
      let (draft, cs) ← member step draft cs
      membersUpTo step n false draft cs

/-- **Read the members of an object** behind its opening bracket. Every member takes a
character or more, so there are no more of them than characters. -/
def members (step : σ → String → Member σ) (draft : σ) (cs : List Char) :
    Except Fault (σ × List Char) :=
  membersUpTo step (cs.length + 1) true draft cs

/-! ### Lists -/

/-- **One element of a list**, unless the list ends. -/
def element (isFirst : Bool) (value : List Char → Except Fault (α × List Char)) (cs : List Char) :
    Except Fault (Option α × List Char) :=
  let one (cs : List Char) : Except Fault (Option α × List Char) := do
    let (a, rest) ← value cs
    return (some a, rest)
  match skipBlanks cs with
  | [] => past .endInList []
  | c :: rest =>
    if c = ']' then .ok (none, c :: rest)
    else if isFirst then one (c :: rest)
    else if c = ',' then
      match skipBlanks rest with
      | [] => past .endInValue []
      | d :: rest => if d = ']' then past .trailingComma (d :: rest) else one (d :: rest)
    else past .listEndExpected (c :: rest)

/-- One element that must be there: the number of those before it, and what is expected. -/
def needed (count : Nat) (expected : String) (value : List Char → Except Fault (α × List Char))
    (cs : List Char) : Except Fault (α × List Char) := do
  match ← element (count == 0) value cs with
  | (some a, rest) => return (a, rest)
  | (none, rest) => here (.tooFew count expected) (behind ']' rest)

/-- The closing bracket of a list of which no more elements are asked for. -/
def listEnd (cs : List Char) : Except Fault (List Char) :=
  match skipBlanks cs with
  | [] => past .endInList []
  | c :: rest =>
    if c = ']' then .ok rest
    else if c = ',' then
      match skipBlanks rest with
      | ']' :: rest => past .trailingComma (']' :: rest)
      | rest => past .trailingCharacters rest
    else past .trailingCharacters (c :: rest)

/-! ### Records -/

/-- How a record is read. -/
structure RecordShape (σ α : Type) where
  /-- What is expected where the record should be. -/
  expected : String
  /-- The draft without members. -/
  empty : σ
  /-- What is to be done with a member. -/
  step : σ → String → Member σ
  /-- The record of a draft, if it lacks nothing. -/
  finish : σ → Except Cause α
  /-- The elements of the record as a list, behind the opening bracket. -/
  elements : List Char → Except Fault (α × List Char)

/-- **Read a record**, as an object or as a list. -/
def record (shape : RecordShape σ α) (cs : List Char) : Except Fault (α × List Char) :=
  atValue (fun cs =>
    match cs with
    | '{' :: rest => do
      let (draft, rest) ← members shape.step shape.empty rest
      let rest := behind '}' rest
      match shape.finish draft with
      | .ok a => return (a, rest)
      | .error cause => here cause rest
    | '[' :: rest => do
      let (a, rest) ← shape.elements rest
      return (a, ← listEnd rest)
    | _ => wrongKind shape.expected cs) cs

/-- A member that a record cannot lack. -/
def required (name : String) (value : Option α) : Except Cause α :=
  match value with
  | some a => .ok a
  | none => .error (.missing name)

/-! ### Writing -/

/-- One member: its name and the written form of its value. -/
def renderMember (name : String) (value : List Char) : List Char :=
  renderText name.toList ++ ':' :: value

/-- **An object** of members, without blanks. -/
def renderObject (members : List (String × List Char)) : List Char :=
  '{' :: [','].intercalate (members.map fun (name, value) => renderMember name value) ++ ['}']

end HttpReplay.Json
