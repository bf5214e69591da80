import HttpReplay.Script.Literal
import HttpReplay.Text.Escape

/-!
# Reading literals

What a literal of the script stands for is decided by the language of the script. This file
holds the rules of that language for the literals that `HttpReplay.Literal` writes: texts, byte
strings, formatted strings and dictionaries of texts, each on one line.

A literal is read off the front of a text, and what follows it is returned with it. Where the
language would go on behind the line, as it does behind three quotes, or where it knows an
escape that no script holds, nothing is returned.

* `HttpReplay.Literal.readText`, `HttpReplay.Literal.readBytes` and
  `HttpReplay.Literal.readDict` read whole literals;
* `HttpReplay.Literal.readTemplate` reads a formatted string into its pieces, and
  `HttpReplay.Literal.fill` puts values into them.
-/

namespace HttpReplay.Literal

/-! ### What may stand between the quotes -/

/-- The rules for the inside of one kind of literal. -/
structure Rules where
  /-- How many digits follow a letter that announces a number. -/
  digits? : Char → Option Nat
  /-- The characters that may stand raw. -/
  isRaw : Char → Bool

/-- In a text all characters may stand raw but line ends and zero, and a number may have two,
four or eight digits. -/
def Rules.ofText : Rules := ⟨Text.escapeDigits?, fun c => c != '\n' && c != '\r' && c != '\x00'⟩

/-- In a byte string the same holds of the characters of ASCII, and a number has two digits. -/
def Rules.ofBytes : Rules :=
  ⟨fun c => if c = 'x' then some 2 else none, fun c => ofText.isRaw c && c.toNat < 128⟩

/-- The character that a letter behind a backslash stands for. -/
def unescapeLetter? (c : Char) : Option Char :=
  if c = '\\' ∨ c = single ∨ c = double then some c
  else if c = 'n' then some '\n'
  else if c = 'r' then some '\r'
  else if c = 't' then some '\t'
  else if c = 'a' then some '\x07'
  else if c = 'b' then some '\x08'
  else if c = 'f' then some '\x0c'
  else if c = 'v' then some '\x0b'
  else none

/-- An escape behind its backslash. -/
def unescape (rules : Rules) (cs : List Char) : Option (Char × List Char) :=
  Text.escape unescapeLetter? rules.digits? cs

/-! ### Texts and byte strings -/

/-- The opening quote of a literal on one line, and what stands behind it. Three quotes open a
literal over several lines. -/
def openingQuote? : List Char → Option (Char × List Char)
  | [] => none
  | q :: cs => if (q = single ∨ q = double) ∧ ¬ [q, q] <+: cs then some (q, cs) else none

/-- The inside of a literal up to and with its closing quote. -/
def inside (rules : Rules) (quote : Char) (cs : List Char) : Option (List Char × List Char) :=
  match cs with
  | [] => none
  | c :: rest =>
    if c = quote then some ([], rest)
    else if c = '\\' then
      match _h : unescape rules rest with
      | none => none
      | some (d, rest) => (inside rules quote rest).map fun (ds, rest) => (d :: ds, rest)
    else if rules.isRaw c then (inside rules quote rest).map fun (ds, rest) => (c :: ds, rest)
    else none
termination_by cs.length
decreasing_by
  · have := Text.length_lt_of_escape _h
    simp only [List.length_cons]
    omega
  · simp

/-- **Read a text.** -/
def readText (cs : List Char) : Option (List Char × List Char) :=
  (openingQuote? cs).bind fun (q, rest) => inside .ofText q rest

/-- **Read a byte string**, every character of which stands for the byte of its number. -/
def readBytes : List Char → Option (Bytes × List Char)
  | 'b' :: cs => do
    let (q, rest) ← openingQuote? cs
    let (chars, rest) ← inside .ofBytes q rest
    return (chars.map fun c => c.toNat.toUInt8, rest)
  | _ => none

/-! ### Formatted strings -/

/-- A piece of a formatted string: a character, or a field with the name of what it shows. -/
inductive Piece
  | char (c : Char)
  | field (name : List Char)
  deriving Repr, DecidableEq

/-- The text of a formatted string whose fields show the given values. -/
def fill (value : List Char → List Char) (pieces : List Piece) : List Char :=
  pieces.flatMap fun
    | .char c => [c]
    | .field name => value name

/-- The characters of names. -/
def isNameChar (c : Char) : Bool := c.isAlphanum || c == '_'

/-- The name in a field, and what stands behind the field's closing brace. -/
def fieldName? (cs : List Char) : Option (List Char × List Char) :=
  if (cs.takeWhile isNameChar).isEmpty then none
  else
    match cs.dropWhile isNameChar with
    | '}' :: rest => some (cs.takeWhile isNameChar, rest)
    | _ => none

theorem length_lt_of_fieldName? {cs name rest : List Char}
    (h : fieldName? cs = some (name, rest)) : rest.length < cs.length := by
  unfold fieldName? at h
  split at h
  · simp at h
  · have hs := (List.dropWhile_suffix (l := cs) isNameChar).length_le
    split at h
    · rename_i after hd
      rw [hd, List.length_cons] at hs
      simp only [Option.some.injEq, Prod.mk.injEq] at h
      rw [← h.2]
      omega
    · simp at h

/-- What a brace of a formatted string begins: twice the same brace is the character, and an
opening brace begins a field otherwise. -/
def braced (brace : Char) : List Char → Option (Piece × List Char)
  | [] => none
  | c :: cs =>
    if c = brace then some (.char brace, cs)
    else if brace = '{' then (fieldName? (c :: cs)).map fun (name, rest) => (.field name, rest)
    else none

theorem length_lt_of_braced {brace : Char} {cs rest : List Char} {p : Piece}
    (h : braced brace cs = some (p, rest)) : rest.length < cs.length := by
  cases cs with
  | nil => simp [braced] at h
  | cons c cs =>
    simp only [braced] at h
    split at h
    · simp only [Option.some.injEq, Prod.mk.injEq] at h
      simp [← h.2]
    · split at h
      · simp only [Option.map_eq_some_iff] at h
        obtain ⟨⟨name, after⟩, hn, hp⟩ := h
        simp only [Prod.mk.injEq] at hp
        exact hp.2 ▸ length_lt_of_fieldName? hn
      · simp at h

/-- The pieces of a formatted string up to and with its closing quote. -/
def pieces (quote : Char) (cs : List Char) : Option (List Piece × List Char) :=
  match cs with
  | [] => none
  | c :: rest =>
    if c = quote then some ([], rest)
    else if c = '\\' then
      match _h : unescape .ofText rest with
      | none => none
      | some (d, rest) => (pieces quote rest).map fun (ps, rest) => (.char d :: ps, rest)
    else if c = '{' ∨ c = '}' then
      match _h : braced c rest with
      | none => none
      | some (p, rest) => (pieces quote rest).map fun (ps, rest) => (p :: ps, rest)
    else if Rules.ofText.isRaw c then
      (pieces quote rest).map fun (ps, rest) => (.char c :: ps, rest)
    else none
termination_by cs.length
decreasing_by
  · have := Text.length_lt_of_escape _h
    simp only [List.length_cons]
    omega
  · have := length_lt_of_braced _h
    simp only [List.length_cons]
    omega
  · simp

/-- **Read a formatted string** into its pieces. -/
def readTemplate : List Char → Option (List Piece × List Char)
  | 'f' :: cs => (openingQuote? cs).bind fun (q, rest) => pieces q rest
  | _ => none

/-! ### Dictionaries -/

/-- Drop the spaces in front. -/
def skipSpaces (cs : List Char) : List Char := cs.dropWhile (· == ' ')

/-- The text behind a mark that comes next, with or without spaces in front of it. -/
def behind? (mark : Char) (cs : List Char) : Option (List Char) :=
  match skipSpaces cs with
  | [] => none
  | c :: rest => if c = mark then some rest else none

/-- Elements with commas between them, at most so many, up to and with a closing mark. A comma
may stand behind the last one. -/
def elements {α : Type} (close : Char) (element : List Char → Option (α × List Char)) :
    Nat → List Char → Option (List α × List Char)
  | 0, _ => none
  | n + 1, cs =>
    match behind? close cs with
    | some rest => some ([], rest)
    | none => do
      let (a, rest) ← element (skipSpaces cs)
      match behind? close rest with
      | some rest => return ([a], rest)
      | none =>
        let (more, rest) ← elements close element n (← behind? ',' rest)
        return (a :: more, rest)

/-- An entry of a dictionary: two texts with a colon between them. -/
def entry (cs : List Char) : Option ((List Char × List Char) × List Char) := do
  let (name, rest) ← readText cs
  let (value, rest) ← readText (skipSpaces (← behind? ':' rest))
  return ((name, value), rest)

/-- **Read a dictionary** of texts into its entries, in order. Every entry takes a character or
more, so there are no more of them than characters. -/
def readDict : List Char → Option (List (List Char × List Char) × List Char)
  | '{' :: rest => elements '}' entry (rest.length + 1) rest
  | _ => none

end HttpReplay.Literal
