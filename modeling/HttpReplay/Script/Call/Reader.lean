import HttpReplay.Script.Call
import HttpReplay.Script.Literal.Reader

/-!
# Reading calls

A script is read line by line. A line ends with a line feed, a carriage return, or both, and a
line that begins with a number sign is a comment. The lines that do something are calls on the
session, and this file reads them by the rules of the script's language: a name, the function
that is called, and the arguments, first those by position and then those by name.

* `HttpReplay.Script.lines` divides a script into its lines;
* `HttpReplay.Script.Call.ofLine?` reads a line with a call;
* `HttpReplay.Script.Argument.value` is what an argument stands for, once it is known what the
  names in formatted strings stand for.
-/

namespace HttpReplay.Script

/-! ### Lines -/

/-- The line that is being read, reversed, and the lines behind it. -/
def linesFrom (current : List Char) : List Char → List (List Char)
  | [] => if current = [] then [] else [current.reverse]
  | '\r' :: '\n' :: cs => current.reverse :: linesFrom [] cs
  | c :: cs =>
    if c = '\n' ∨ c = '\r' then current.reverse :: linesFrom [] cs
    else linesFrom (c :: current) cs

/-- **The lines of a script.** -/
def lines (script : List Char) : List (List Char) := linesFrom [] script

/-- Is a line a comment? -/
def isComment (line : List Char) : Bool := line.head? == some '#'

/-! ### Arguments -/

/-- An argument as it is written. -/
inductive Argument
  | text (value : List Char)
  | bytes (data : Bytes)
  | template (pieces : List Literal.Piece)
  | dict (entries : List (List Char × List Char))
  deriving Repr, DecidableEq

/-- What an argument stands for. In a dictionary a name that comes up again keeps its place and
takes the later value, as in the header fields of a message. -/
inductive Value
  | text (value : List Char)
  | bytes (data : Bytes)
  | dict (entries : Headers)
  deriving Repr, DecidableEq

/-- **The value of an argument**, where names stand for the given texts. -/
def Argument.value (names : List Char → List Char) : Argument → Value
  | text value => .text value
  | bytes data => .bytes data
  | template pieces => .text (Literal.fill names pieces)
  | dict entries =>
    .dict (Headers.ofList (entries.map fun entry =>
      (String.ofList entry.1, String.ofList entry.2)))

/-- Read an argument without its name. -/
def argument (cs : List Char) : Option (Argument × List Char) :=
  match cs.head? with
  | some 'b' => (Literal.readBytes cs).map fun (data, rest) => (.bytes data, rest)
  | some 'f' => (Literal.readTemplate cs).map fun (pieces, rest) => (.template pieces, rest)
  | some '{' => (Literal.readDict cs).map fun (entries, rest) => (.dict entries, rest)
  | _ => (Literal.readText cs).map fun (value, rest) => (.text value, rest)

/-- Read a name, which does not begin with a digit. -/
def name (cs : List Char) : Option (List Char × List Char) :=
  if (cs.takeWhile Literal.isNameChar).isEmpty ∨ cs.head?.any Char.isDigit then none
  else some (cs.takeWhile Literal.isNameChar, cs.dropWhile Literal.isNameChar)

/-- Read the name of an argument and the equals sign behind it, if it has one. -/
def keyword? (cs : List Char) : Option (List Char × List Char) := do
  let (key, rest) ← name cs
  let rest ← Literal.behind? '=' rest
  return (key, Literal.skipSpaces rest)

/-- Read an argument with its name, if it has one. -/
def namedArgument (cs : List Char) : Option ((Option (List Char) × Argument) × List Char) :=
  match keyword? cs with
  | some (key, rest) => (argument rest).map fun (a, rest) => ((some key, a), rest)
  | none => (argument cs).map fun (a, rest) => ((none, a), rest)

/-! ### Calls -/

/-- **A call as it is made**: the function of which object is called, and with which values. -/
structure Made where
  object : List Char
  function : List Char
  positional : List Value
  keywords : List (List Char × Value)
  deriving Repr, DecidableEq

/-- **A call** whose result is given a name. -/
structure Call where
  /-- The name that the result is given. -/
  result : List Char
  /-- The name of what the function belongs to. -/
  object : List Char
  function : List Char
  positional : List Argument
  keywords : List (List Char × Argument)
  deriving Repr, DecidableEq

namespace Call

/-- What a call makes, where names stand for the given texts. -/
def made (names : List Char → List Char) (c : Call) : Made where
  object := c.object
  function := c.function
  positional := c.positional.map (Argument.value names)
  keywords := c.keywords.map fun (key, a) => (key, a.value names)

/-- Divide arguments into those by position and those by name, none of which may stand before
one by position. -/
def divide : List (Option (List Char) × Argument) →
    Option (List Argument × List (List Char × Argument))
  | [] => some ([], [])
  | (none, a) :: rest => (divide rest).map fun (positional, keywords) => (a :: positional, keywords)
  | (some key, a) :: rest =>
    match divide rest with
    | some ([], keywords) => some ([], (key, a) :: keywords)
    | _ => none

/-- **Read a line with a call.** -/
def ofLine? (line : List Char) : Option Call := do
  let (result, rest) ← name line
  let (object, rest) ← name (Literal.skipSpaces (← Literal.behind? '=' rest))
  let (function, rest) ← name (← Literal.behind? '.' rest)
  let rest ← Literal.behind? '(' rest
  let (arguments, rest) ← Literal.elements ')' namedArgument (rest.length + 1) rest
  let (positional, keywords) ← divide arguments
  if Literal.skipSpaces rest = [] then return { result, object, function, positional, keywords }
  else none

end Call

end HttpReplay.Script
