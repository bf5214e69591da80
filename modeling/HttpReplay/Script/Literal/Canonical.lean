import HttpReplay.Script.Literal
import HttpReplay.Text.Space

/-!
# The language's own literals

The language of the script can show a value: it answers with a literal, always the same one for a
value, and this is the form that a reader of scripts is used to. This file holds the rules by which
the language writes texts and byte strings, and nothing of how the script writes them.

Double quotes stand around a value that holds single quotes and no double ones, and single quotes
around all others. Behind a backslash stand the quote, the backslash itself and the letters for tab,
line feed and carriage return. Of the other characters those that are printable stand raw, and the
rest are escaped by their numbers, in two digits where these suffice, or else in four, or in eight.

Which characters of a text are printable is decided by their general categories in Unicode. The
categories change as Unicode grows, so the rules are given for any of them.

* `HttpReplay.Literal.Canonical.text` and `HttpReplay.Literal.Canonical.bytes` are the literals;
* `HttpReplay.Literal.Category` are the categories, and `HttpReplay.Literal.IsUnicode` is what is
  known of them.
-/

namespace HttpReplay.Literal

/-! ### Categories -/

/-- **The general category of a character**, as far as printing depends on it. -/
inductive Category
  /-- `Cc`: control characters. -/
  | control
  /-- `Cf`: format characters, which act on the text around them and leave no mark. -/
  | format
  /-- `Cs`: the halves of surrogate pairs. -/
  | surrogate
  /-- `Co`: characters for private use. -/
  | privateUse
  /-- `Cn`: numbers that no character has been assigned to. -/
  | unassigned
  /-- `Zl`: the line separator. -/
  | lineSeparator
  /-- `Zp`: the paragraph separator. -/
  | paragraphSeparator
  /-- `Zs`: spaces. -/
  | spaceSeparator
  /-- Letters, marks, numbers, punctuation and symbols. -/
  | graphic
  deriving Repr, DecidableEq

/-- The three categories of separators. -/
def Category.isSeparator (k : Category) : Bool :=
  k == .lineSeparator || k == .paragraphSeparator || k == .spaceSeparator

/-- **Is a character printable?** The space is, and of the other characters those that are neither
separators nor controls, format characters, surrogates, private or unassigned. -/
def isPrintable (category : Char → Category) (c : Char) : Bool :=
  c == ' ' || category c == .graphic

/-- **What is known of the categories**, in every version of Unicode from 6.3 on. -/
structure IsUnicode (category : Char → Category) : Prop where
  /-- The control characters are those below the space and those from U+007F to U+009F. -/
  control_iff : ∀ c, category c = .control ↔ Text.isControl c = true
  /-- The separators are the white space that is no control character. -/
  separator_iff : ∀ c, (category c).isSeparator = true ↔
    Text.isSpace c = true ∧ Text.isControl c = false
  /-- The characters of ASCII that leave a mark are letters, numbers, punctuation and symbols. -/
  graphic_of_ascii : ∀ c : Char, 0x20 < c.toNat → c.toNat < 0x7F → category c = .graphic
  /-- The soft hyphen, the zero-width and directional marks, the word joiner and the invisible
  operators, and the byte order mark are format characters. -/
  format_of_isInvisible : ∀ c, isInvisible c = true → category c = .format

namespace Canonical

/-! ### Characters -/

/-- The quote for a value. -/
def quote (cs : List Char) : Char := if single ∈ cs ∧ double ∉ cs then double else single

/-- The last hexadecimal digits of a number, as many as are asked for. -/
def digits : Nat → Nat → List Char
  | 0, _ => []
  | width + 1, n => digits width (n / 16) ++ [Nat.digitChar (n % 16)]

/-- An escape by number. -/
def escape (n : Nat) : List Char :=
  if n < 0x100 then '\\' :: 'x' :: digits 2 n
  else if n < 0x10000 then '\\' :: 'u' :: digits 4 n
  else '\\' :: 'U' :: digits 8 n

/-- One character between quotes, where some characters may stand raw. -/
def char (isRaw : Char → Bool) (quote c : Char) : List Char :=
  if c = quote ∨ c = '\\' then ['\\', c]
  else if c = '\t' then ['\\', 't']
  else if c = '\n' then ['\\', 'n']
  else if c = '\r' then ['\\', 'r']
  else if isRaw c then [c]
  else escape c.toNat

/-- Characters in the quotes for them. -/
def chars (isRaw : Char → Bool) (cs : List Char) : List Char :=
  quote cs :: cs.flatMap (char isRaw (quote cs)) ++ [quote cs]

/-! ### Literals -/

/-- **A text** as the language shows it. -/
def text (category : Char → Category) (value : String) : String :=
  String.ofList (chars (isPrintable category) value.toList)

/-- The characters of ASCII that can be seen, with the space. -/
def isAscii (c : Char) : Bool := 0x20 ≤ c.toNat && c.toNat < 0x7F

/-- **A byte string** as the language shows it, each byte as the character of its number. -/
def bytes (data : Bytes) : String :=
  String.ofList ('b' :: chars isAscii (data.map fun b => Char.ofNat b.toNat))

example : bytes [0x27, 0x5C, 0x0A, 0xFF] = "b\"'\\\\\\n\\xff\"" := by decide +kernel

end Canonical

end HttpReplay.Literal
