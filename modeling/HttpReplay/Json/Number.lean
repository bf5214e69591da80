import HttpReplay.Binary64
import HttpReplay.Json.Fault

/-!
# Numbers in JSON

A number that is written without fraction and exponent is an integer as long as it fits in
64 bits, with a sign if it is negative. Every other number is a binary fraction: as many
digits as fit in 64 bits count, those behind them only move the point, and the power of ten
is applied last. Minus zero is a fraction too.

`HttpReplay.Json.number` reads a number whose minus sign, if any, has been read.
-/

namespace HttpReplay.Json

/-- A number. -/
inductive Number
  | natural (value : Nat)
  /-- A negative integer, without its sign. -/
  | negative (value : Nat)
  | real (isNegative : Bool) (value : Binary64)
  deriving Repr, DecidableEq

/-- A number as a found value. -/
def Number.found : Number → Found
  | .natural n => .integer n
  | .negative n => .integer (-n)
  | .real isNegative x => .real (x.compact isNegative)

/-! ### Digits -/

/-- Does a text begin with a digit? -/
def startsWithDigit (cs : List Char) : Bool := cs.head?.any Char.isDigit

/-- Does a text begin with the mark of an exponent? -/
def startsWithExponent (cs : List Char) : Bool := cs.head?.any fun c => c == 'e' || c == 'E'

/-- Read digits onto a value as long as it stays below a limit: the value, how many digits
were read, and the rest. -/
def digitsBelow (limit value : Nat) : List Char → Nat × Nat × List Char
  | [] => (value, 0, [])
  | c :: cs =>
    if c.isDigit then
      let next := value * 10 + (c.toNat - 48)
      if next < limit then
        let (v, n, rest) := digitsBelow limit next cs
        (v, n + 1, rest)
      else (value, 0, c :: cs)
    else (value, 0, c :: cs)

/-- Drop the digits in front, and count them. -/
def skipDigits (cs : List Char) : Nat × List Char :=
  ((cs.takeWhile Char.isDigit).length, cs.dropWhile Char.isDigit)

/-! ### Fractions -/

/-- The number with these digits and this power of ten. -/
def realOf (isNegative : Bool) (digits : Nat) (power : Int) (cs : List Char) :
    Except Fault (Number × List Char) :=
  match ((Binary64.ofRatio? digits 1).getD Binary64.zero).scale? power with
  | some x => .ok (.real isNegative x, cs)
  | none => here .numberTooLarge cs

/-- The sign of an exponent, and the rest. -/
def exponentSign : List Char → Bool × List Char
  | '+' :: cs => (false, cs)
  | '-' :: cs => (true, cs)
  | cs => (false, cs)

/-- The least number that is too large for an exponent. -/
def exponentLimit : Nat := Numeral.capacity 31

/-- The number with these digits and this power of ten, times the power that the exponent
behind its mark adds. -/
def exponentOf (isNegative : Bool) (digits : Nat) (power : Int) (cs : List Char) :
    Except Fault (Number × List Char) :=
  let (down, cs) := exponentSign cs
  match cs with
  | [] => here .endInValue []
  | _ =>
    if startsWithDigit cs then
      let (e, _, rest) := digitsBelow exponentLimit 0 cs
      if startsWithDigit rest then
        if digits ≠ 0 ∧ ¬ down then past .numberTooLarge rest
        else .ok (.real isNegative Binary64.zero, (skipDigits rest).2)
      else realOf isNegative digits (if down then power - e else power + e) rest
    else past .badNumber cs

/-- The number with these digits, which stand before a point, and the power of ten of those
that were left out there. -/
def fractionOf (isNegative : Bool) (digits : Nat) (power : Int) (cs : List Char) :
    Except Fault (Number × List Char) :=
  let (value, count, rest) := digitsBelow Numeral.wordLimit digits cs
  let power := power - count
  let finish (rest : List Char) : Except Fault (Number × List Char) :=
    if startsWithExponent rest then exponentOf isNegative value power (rest.drop 1)
    else realOf isNegative value power rest
  if startsWithDigit rest then finish (skipDigits rest).2
  else if count = 0 then past (if rest = [] then .endInValue else .badNumber) rest
  else finish rest

/-- What may stand behind the digits before a point: a fraction or an exponent. -/
def realTail? (isNegative : Bool) (digits : Nat) (power : Int) (cs : List Char) :
    Option (Except Fault (Number × List Char)) :=
  if cs.head? = some '.' then some (fractionOf isNegative digits power (cs.drop 1))
  else if startsWithExponent cs then some (exponentOf isNegative digits power (cs.drop 1))
  else none

/-! ### Numbers -/

/-- The integer with these digits; minus zero and what does not fit in 64 bits with its sign
are fractions. -/
def integerOf (isNegative : Bool) (digits : Nat) : Number :=
  if isNegative then
    if digits = 0 ∨ Numeral.capacity 63 < digits then
      .real true ((Binary64.ofRatio? digits 1).getD Binary64.zero)
    else .negative digits
  else .natural digits

/-- **Read a number** behind its sign. -/
def number (isNegative : Bool) (cs : List Char) : Except Fault (Number × List Char) :=
  match cs with
  | [] => here .endInValue []
  | '0' :: rest =>
    if startsWithDigit rest then past .badNumber rest
    else (realTail? isNegative 0 0 rest).getD (.ok (integerOf isNegative 0, rest))
  | _ =>
    if startsWithDigit cs then
      let (value, _, rest) := digitsBelow Numeral.wordLimit 0 cs
      if startsWithDigit rest then
        let (count, rest) := skipDigits rest
        (realTail? isNegative value count rest).getD (realOf isNegative value count rest)
      else (realTail? isNegative value 0 rest).getD (.ok (integerOf isNegative value, rest))
    else past .badNumber cs

/-! ### Numbers that are not needed

A number whose value nobody asks for is only checked for its form, and there the end of the
text is a bad number like any other character. -/

/-- Drop the digits of an exponent behind its mark. -/
def skipExponent (cs : List Char) : Except Fault (List Char) :=
  let cs := (exponentSign cs).2
  if startsWithDigit cs then .ok (skipDigits cs).2 else past .badNumber cs

/-- Drop the digits of a fraction behind its point, and an exponent. -/
def skipFraction (cs : List Char) : Except Fault (List Char) :=
  if startsWithDigit cs then
    let rest := (skipDigits cs).2
    if startsWithExponent rest then skipExponent (rest.drop 1) else .ok rest
  else past .badNumber cs

/-- The text behind the digits before a point, where a zero must be the only one. -/
def wholeRest (cs : List Char) : List Char :=
  if cs.head? = some '0' then cs.drop 1 else (skipDigits cs).2

/-- Drop what may stand behind the digits before a point. -/
def skipTail (cs : List Char) : Except Fault (List Char) :=
  if startsWithDigit cs then past .badNumber cs
  else if cs.head? = some '.' then skipFraction (cs.drop 1)
  else if startsWithExponent cs then skipExponent (cs.drop 1)
  else .ok cs

/-- Drop a number behind its sign. -/
def skipNumber (cs : List Char) : Except Fault (List Char) :=
  if startsWithDigit cs then skipTail (wholeRest cs) else past .badNumber cs

end HttpReplay.Json
