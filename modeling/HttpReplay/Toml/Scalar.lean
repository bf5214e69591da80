import HttpReplay.Binary64
import HttpReplay.Text.Found
import HttpReplay.Time.Calendar

/-!
# Plain values in TOML

Numbers, truth values, dates and times are written without quotes. Nobody asks for such a value
here: a setting is a text. So all that is kept of one is what a message says of it.

* `HttpReplay.Toml.integer?`, `HttpReplay.Toml.real?` and `HttpReplay.Toml.isMoment` tell which
  words are whole numbers, numbers with a fraction or an exponent, and dates or times;
* `HttpReplay.Toml.plain` reads a plain value.
-/

namespace HttpReplay.Toml

/-- **What a value is.** -/
inductive Value
  | text (value : String)
  /-- A plain value, and how a message speaks of it. -/
  | other (found : Found)
  /-- A number too large to be one, and what a message says. -/
  | overflow (message : String)
  /-- A list in brackets. -/
  | list
  /-- A table in braces. -/
  | object
  deriving Repr, DecidableEq

/-! ### Whole numbers -/

/-- Digits without the underscores between them, each of which must stand between two digits. -/
def digits? (isDigit : Char → Bool) : List Char → Option (List Char)
  | [] => none
  | [c] => if isDigit c then some [c] else none
  | c :: '_' :: cs => if isDigit c then (digits? isDigit cs).map (c :: ·) else none
  | c :: cs => if isDigit c then (digits? isDigit cs).map (c :: ·) else none

/-- A number in a base, with its digits checked. -/
def inBase? (base : Nat) (cs : List Char) : Option Nat :=
  (digits? (fun c => (Numeral.digitOf? base c).isSome) cs).bind (Numeral.read? base)

/-- Decimal digits of which the first is no zero, unless it is the only one. -/
def wholeDigits? (cs : List Char) : Option (List Char) :=
  (digits? Char.isDigit cs).filter fun digits => digits.length = 1 ∨ digits.head? ≠ some '0'

/-- A sign, and what stands behind it. -/
def sign : List Char → Bool × List Char
  | '-' :: cs => (true, cs)
  | '+' :: cs => (false, cs)
  | cs => (false, cs)

/-- A whole number, in decimal with a sign or in base 16, 8 or 2 without. -/
def integer? (word : List Char) : Option Int :=
  match word with
  | '0' :: 'x' :: cs => (inBase? 16 cs).map fun n => (n : Int)
  | '0' :: 'o' :: cs => (inBase? 8 cs).map fun n => (n : Int)
  | '0' :: 'b' :: cs => (inBase? 2 cs).map fun n => (n : Int)
  | _ => do
    let (isNegative, cs) := sign word
    let n ← (wholeDigits? cs).bind (Numeral.read? 10)
    return if isNegative then -(n : Int) else n

/-- How a message speaks of a whole number: up to 64 bits plainly, up to 128 bits by name. -/
def integerValue (n : Int) : Value :=
  let below (bits : Nat) : Bool := n < Numeral.capacity bits
  let above (bits : Nat) : Bool := -(Numeral.capacity bits : Int) ≤ n
  if above 63 && below 64 then .other (.integer n)
  else if above 127 && below 127 then .other (.wideInteger n true)
  else if 0 ≤ n && below 128 then .other (.wideInteger n false)
  else .overflow "integer number overflowed"

/-! ### Numbers with a fraction or an exponent -/

/-- The parts of a number: its sign, its digits, and the power of ten of the last of them. -/
structure Decimal where
  isNegative : Bool
  digits : Nat
  power : Int
  deriving Repr

/-- The power of ten behind the mark of an exponent. -/
def exponent? (cs : List Char) : Option Int := do
  let (isNegative, cs) := sign cs
  let n ← (digits? Char.isDigit cs).bind (Numeral.read? 10)
  return if isNegative then -(n : Int) else n

/-- The parts of a word before and behind the first character of a kind. -/
def splitAt? (p : Char → Bool) (cs : List Char) : List Char × Option (List Char) :=
  match cs.dropWhile (!p ·) with
  | [] => (cs, none)
  | _ :: rest => (cs.takeWhile (!p ·), some rest)

/-- A number with a fraction, an exponent or both. -/
def decimal? (word : List Char) : Option Decimal := do
  let (isNegative, cs) := sign word
  let (cs, exponent) := splitAt? (fun c => c == 'e' || c == 'E') cs
  let (whole, fraction) := splitAt? (· == '.') cs
  guard (exponent.isSome ∨ fraction.isSome)
  let whole ← wholeDigits? whole
  let fraction ←
    match fraction with
    | none => some []
    | some cs => digits? Char.isDigit cs
  let power ←
    match exponent with
    | none => some 0
    | some cs => exponent? cs
  let digits ← Numeral.read? 10 (whole ++ fraction)
  return { isNegative, digits, power := power - fraction.length }

/-- The value nearest to a number, if it is not too large. A power of ten that is far beyond
the range of values is not computed. -/
def Decimal.value? (d : Decimal) : Option Binary64 :=
  let digits := (Numeral.decimal d.digits).length
  if d.digits = 0 ∨ d.power + digits < -400 then some Binary64.zero
  else if 400 < d.power + digits then none
  else if 0 ≤ d.power then Binary64.ofRatio? (d.digits * Nat.pow 10 d.power.toNat) 1
  else Binary64.ofRatio? d.digits (Nat.pow 10 d.power.natAbs)

/-- The words for infinity and for no number, as a message shows them. -/
def specialWord? (word : List Char) : Option String :=
  let (isNegative, cs) := sign word
  if cs = ['i', 'n', 'f'] then some (if isNegative then "-inf" else "inf")
  else if cs = ['n', 'a', 'n'] then some "NaN"
  else none

/-- A number that is not whole. -/
def real? (word : List Char) : Option Value :=
  match specialWord? word with
  | some shown => some (.other (.real shown))
  | none =>
    (decimal? word).map fun d =>
      match d.value? with
      | some x => .other (.real (x.positional d.isNegative))
      | none => .overflow "floating-point number overflowed"

/-! ### Dates and times -/

/-- So many decimal digits. -/
def digitsOf (count : Nat) (cs : List Char) : Option (Nat × List Char) := do
  guard (count ≤ cs.length ∧ (cs.take count).all Char.isDigit)
  let n ← Numeral.read? 10 (cs.take count)
  return (n, cs.drop count)

/-- A character. -/
def expect (c : Char) : List Char → Option (List Char)
  | [] => none
  | d :: cs => if d = c then some cs else none

/-- A date that exists. -/
def date (cs : List Char) : Option (List Char) := do
  let (year, cs) ← digitsOf 4 cs
  let (month, cs) ← digitsOf 2 (← expect '-' cs)
  let (day, cs) ← digitsOf 2 (← expect '-' cs)
  guard (Calendar.Date.IsValid ⟨year, month, day⟩)
  return cs

/-- Hours and minutes. -/
def clock (cs : List Char) : Option (List Char) := do
  let (hour, cs) ← digitsOf 2 cs
  let (minute, cs) ← digitsOf 2 (← expect ':' cs)
  guard (hour ≤ 23 ∧ minute ≤ 59)
  return cs

/-- The fraction of a second, if there is one. -/
def secondFraction : List Char → Option (List Char)
  | '.' :: cs => do
    guard (cs.head?.any Char.isDigit)
    return cs.dropWhile Char.isDigit
  | cs => some cs

/-- A time, with or without seconds. -/
def time (cs : List Char) : Option (List Char) := do
  match ← clock cs with
  | ':' :: cs =>
    let (second, cs) ← digitsOf 2 cs
    guard (second ≤ 60)
    secondFraction cs
  | cs => return cs

/-- The offset of a date and time, if there is one. -/
def offset : List Char → Option (List Char)
  | [] => some []
  | c :: cs =>
    if c = 'Z' ∨ c = 'z' then some cs else if c = '+' ∨ c = '-' then clock cs else none

/-- The letters that may stand between a date and a time. -/
def isDivider (c : Char) : Bool := c == 'T' || c == 't' || c == ' '

/-- A date, a date and a time with or without an offset, or a time. -/
def isMoment (word : List Char) : Bool :=
  match date word with
  | some [] => true
  | some (c :: cs) => isDivider c && ((time cs).bind offset == some [])
  | none => time word == some []

/-! ### Plain values -/

/-- The value of a word. -/
def wordValue? (word : List Char) : Option Value :=
  if word = "true".toList then some (.other (.bool true))
  else if word = "false".toList then some (.other (.bool false))
  else if isMoment word then some (.other .object)
  else
    match integer? word with
    | some n => some (integerValue n)
    | none => real? word

/-- The characters of plain values. -/
def isPlain (c : Char) : Bool :=
  c.isAlphanum || c == '_' || c == '-' || c == '+' || c == '.' || c == ':'

/-- The word in front of a text. A date may be followed by a space and a time. -/
def plainWord (cs : List Char) : List Char × List Char :=
  let word := cs.takeWhile isPlain
  let rest := cs.dropWhile isPlain
  match date word, rest with
  | some [], ' ' :: d :: after =>
    if d.isDigit then
      (word ++ ' ' :: (d :: after).takeWhile isPlain, (d :: after).dropWhile isPlain)
    else (word, rest)
  | _, _ => (word, rest)

/-- **A plain value.** -/
def plain (cs : List Char) : Option (Value × List Char) :=
  let (word, rest) := plainWord cs
  (wordValue? word).map fun v => (v, rest)

end HttpReplay.Toml
