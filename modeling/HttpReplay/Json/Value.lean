import HttpReplay.Json.Number
import HttpReplay.Json.Text

/-!
# Values of a known kind

Where a value of one kind is asked for, a value of another kind is refused. The refusal names
what was found, so a number, a word or a text is read to its end first and can turn out to be
faulty in itself; of a list or an object only the bracket is looked at.

* `HttpReplay.Json.wrongKind` refuses a value;
* `HttpReplay.Json.text`, `HttpReplay.Json.natural` and `HttpReplay.Json.null` read one;
* `HttpReplay.Json.whole` reads a text that holds one value and nothing behind it.
-/

namespace HttpReplay.Json

variable {α : Type}

/-- A number at its first character, which is a minus sign or a digit. -/
def signedNumber (cs : List Char) : Except Fault (Number × List Char) :=
  match cs with
  | '-' :: rest => number true rest
  | _ => number false cs

/-- Does a text begin with a number? -/
def startsWithNumber (cs : List Char) : Bool := cs.head? == some '-' || startsWithDigit cs

/-- **Refuse the value** at its first character, where another one was expected. -/
def wrongKind (expected : String) (cs : List Char) : Except Fault α :=
  let refuse (found : Found) (rest : List Char) : Except Fault α :=
    here (.wrongKind found expected) rest
  if startsWithNumber cs then do
    let (n, rest) ← signedNumber cs
    refuse n.found rest
  else
    match cs with
    | 'n' :: rest => do refuse .null (← word "ull".toList rest)
    | 't' :: rest => do refuse (.bool true) (← word "rue".toList rest)
    | 'f' :: rest => do refuse (.bool false) (← word "alse".toList rest)
    | '\x22' :: rest => do
      let (value, rest) ← textTail rest
      refuse (.text (String.ofList value)) rest
    | '[' :: _ => refuse .list cs
    | '{' :: _ => refuse .object cs
    | _ => past .valueExpected cs

/-- Read a value at its first character, which is the next one that is not blank. -/
def atValue (read : List Char → Except Fault (α × List Char)) (cs : List Char) :
    Except Fault (α × List Char) :=
  match skipBlanks cs with
  | [] => past .endInValue []
  | c :: rest => read (c :: rest)

/-- A text, by what is expected there. -/
def textOf (expected : String) (cs : List Char) : Except Fault (String × List Char) :=
  atValue (fun cs =>
    match cs with
    | '\x22' :: rest => do
      let (value, rest) ← textTail rest
      return (String.ofList value, rest)
    | _ => wrongKind expected cs) cs

/-- A text. -/
def text (cs : List Char) : Except Fault (String × List Char) := textOf "a string" cs

/-- A natural number below a limit, by what is expected there. -/
def natural (expected : String) (limit : Nat) (cs : List Char) : Except Fault (Nat × List Char) :=
  atValue (fun cs =>
    if startsWithNumber cs then do
      let (n, rest) ← signedNumber cs
      match n with
      | .natural value =>
        if value < limit then return (value, rest) else here (.wrongValue n.found expected) rest
      | .negative _ => here (.wrongValue n.found expected) rest
      | .real .. => here (.wrongKind n.found expected) rest
    else wrongKind expected cs) cs

/-- The word `null`. -/
def null (cs : List Char) : Except Fault (Unit × List Char) :=
  atValue (fun cs =>
    match cs with
    | 'n' :: rest => do return ((), ← word "ull".toList rest)
    | _ => wrongKind "unit" cs) cs

/-- **A text that holds one value**, with nothing but blanks around it. -/
def whole (read : List Char → Except Fault (α × List Char)) (source : String) : Except Fault α := do
  let (value, rest) ← read source.toList
  match skipBlanks rest with
  | [] => return value
  | rest => past .trailingCharacters rest

end HttpReplay.Json
