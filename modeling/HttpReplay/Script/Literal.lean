import HttpReplay.Bytes
import HttpReplay.Text.Numeral
import HttpReplay.Text.Space

/-!
# Literals of the script

The script is Python source, and everything captured that goes into it goes in as a
literal: texts, byte strings, dictionaries of texts, and the literal part of a formatted
string. Each literal is a single line of characters that can be seen, whatever it stands
for, and reads back as exactly that.

The quote is a single one unless the value holds single quotes and no double ones. A
character that is not written raw is written as an escape: by name for the backslash, the
quote, line feed, carriage return and tab, by number for all others.

* `HttpReplay.Literal.text`, `HttpReplay.Literal.bytes` and `HttpReplay.Literal.dict`
  write whole literals;
* `HttpReplay.Literal.template` writes the inside of a formatted string.
-/

namespace HttpReplay.Literal

/-! ### Quotes and escapes -/

/-- The single quote. -/
abbrev single : Char := '\x27'

/-- The double quote. -/
abbrev double : Char := '\x22'

/-- The quote for a value, by the quotes that it holds. -/
def quoteFor (holdsSingle holdsDouble : Bool) : Char :=
  if holdsSingle && !holdsDouble then double else single

/-- Format characters that leave no mark: the soft hyphen, the zero-width and directional
marks, the word joiner and the invisible operators, and the byte order mark. -/
def isInvisible (c : Char) : Bool :=
  let n := c.toNat
  n == 0xAD || (0x200B ≤ n && n ≤ 0x200F) || (0x2060 ≤ n && n ≤ 0x2064) || n == 0xFEFF

/-- The characters that are written raw. -/
def isVisible (c : Char) : Bool :=
  !Text.isControl c && (!Text.isSpace c || c == ' ') && !isInvisible c

/-- An escape by number, in two, four or eight hexadecimal digits. -/
def numbered (n : Nat) : List Char :=
  if n ≤ 0xFF then '\\' :: 'x' :: Numeral.padded 2 (Numeral.hex n)
  else if n ≤ 0xFFFF then '\\' :: 'u' :: Numeral.padded 4 (Numeral.hex n)
  else '\\' :: 'U' :: Numeral.padded 8 (Numeral.hex n)

/-- The escape of a character that has one by name, other than the quotes. -/
def named? (c : Char) : Option (List Char) :=
  if c = '\\' then some ['\\', '\\']
  else if c = '\n' then some ['\\', 'n']
  else if c = '\r' then some ['\\', 'r']
  else if c = '\t' then some ['\\', 't']
  else none

/-! ### Texts -/

/-- One character of a text in the given quotes. -/
def textChar (quote c : Char) : List Char :=
  match named? c with
  | some escape => escape
  | none =>
    if c = quote then ['\\', c]
    else if isVisible c then [c]
    else numbered c.toNat

/-- The characters of a text literal. -/
def textChars (cs : List Char) : List Char :=
  let quote := quoteFor (cs.contains single) (cs.contains double)
  quote :: cs.flatMap (textChar quote) ++ [quote]

/-- **A text** as a literal. -/
def text (value : String) : String := String.ofList (textChars value.toList)

/-! ### Byte strings -/

/-- One byte of a byte string in the given quotes. -/
def byteChar (quote : Char) (b : UInt8) : List Char :=
  let c := Char.ofNat b.toNat
  match named? c with
  | some escape => escape
  | none =>
    if c = quote then ['\\', c]
    else if 0x20 ≤ b ∧ b ≤ 0x7E then [c]
    else numbered b.toNat

/-- The characters of a byte string literal. -/
def byteChars (data : Bytes) : List Char :=
  let quote := quoteFor (data.contains 39) (data.contains 34)
  'b' :: quote :: data.flatMap (byteChar quote) ++ [quote]

/-- **A byte string** as a literal. -/
def bytes (data : Bytes) : String := String.ofList (byteChars data)

/-! ### Formatted strings -/

/-- One character of the inside of a formatted string in double quotes. Braces are written
twice, so that they open no field. -/
def templateChar (c : Char) : List Char :=
  match named? c with
  | some escape => escape
  | none =>
    if c = double then ['\\', c]
    else if c = '{' ∨ c = '}' then [c, c]
    else if isVisible c then [c]
    else numbered c.toNat

/-- **The inside of a formatted string** in double quotes that stands for a text. -/
def template (value : String) : String := String.ofList (value.toList.flatMap templateChar)

/-! ### Dictionaries -/

/-- The entries of a dictionary, each a name and a value. -/
def entryChars : List (String × String) → List Char
  | [] => []
  | [(k, v)] => textChars k.toList ++ ':' :: ' ' :: textChars v.toList
  | (k, v) :: rest =>
    textChars k.toList ++ ':' :: ' ' :: textChars v.toList ++ ',' :: ' ' :: entryChars rest

/-- **A dictionary** of texts as a literal. -/
def dict (pairs : List (String × String)) : String :=
  String.ofList ('{' :: entryChars pairs ++ ['}'])

end HttpReplay.Literal
