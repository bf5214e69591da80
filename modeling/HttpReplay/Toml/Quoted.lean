import HttpReplay.Text.Escape

/-!
# Texts and names in TOML

A text stands in double quotes, with escapes, or in single quotes, without. Three quotes on
either side let it run over several lines; a line end right behind the opening quotes does not
count then, and up to two more quotes may stand before the closing ones. The name of a value is
a bare word or a text on one line.

* `HttpReplay.Toml.text` reads a text of any of the four kinds;
* `HttpReplay.Toml.name` reads the name of a value.

Readers take what they read off the front of a text and return the rest with it; where there is
nothing that they could read they return nothing.
-/

namespace HttpReplay.Toml

/-- Space and tab. -/
def isBlank (c : Char) : Bool := c == ' ' || c == '\t'

/-- Drop the blanks in front. -/
def skipBlanks (cs : List Char) : List Char := cs.dropWhile isBlank

/-- The control characters of ASCII other than the tab, which may not stand anywhere. -/
def isForbidden (c : Char) : Bool := (c.toNat < 32 && c != '\t') || c.toNat == 127

/-- The text behind a line end, if one comes next. -/
def lineEnd? : List Char → Option (List Char)
  | '\n' :: cs => some cs
  | '\r' :: '\n' :: cs => some cs
  | _ => none

/-! ### Escapes -/

/-- The character that a letter behind a backslash stands for. -/
def escapeLetter? (c : Char) : Option Char :=
  if c = '\x22' ∨ c = '\\' then some c
  else if c = 'b' then some '\x08'
  else if c = 't' then some '\t'
  else if c = 'n' then some '\n'
  else if c = 'f' then some '\x0c'
  else if c = 'r' then some '\r'
  else if c = 'e' then some '\x1b'
  else none

/-- An escape behind its backslash. -/
def escape (cs : List Char) : Option (Char × List Char) :=
  Text.escape escapeLetter? Text.escapeDigits? cs

/-! ### Texts on one line -/

/-- A text behind its opening double quote. -/
def basicTail (cs : List Char) : Option (List Char × List Char) :=
  match cs with
  | [] => none
  | c :: rest =>
    if c = '\x22' then some ([], rest)
    else if c = '\\' then
      match _h : escape rest with
      | none => none
      | some (d, rest) => (basicTail rest).map fun (ds, rest) => (d :: ds, rest)
    else if isForbidden c then none
    else (basicTail rest).map fun (ds, rest) => (c :: ds, rest)
termination_by cs.length
decreasing_by
  · have := Text.length_lt_of_escape _h
    simp only [List.length_cons]
    omega
  · simp

/-- A text behind its opening single quote. -/
def literalTail : List Char → Option (List Char × List Char)
  | [] => none
  | c :: rest =>
    if c = '\x27' then some ([], rest)
    else if isForbidden c then none
    else (literalTail rest).map fun (ds, rest) => (c :: ds, rest)

/-! ### Texts over several lines -/

/-- Are these the closing quotes? At most two more belong to the text. -/
def closing? (quote : Char) (cs : List Char) : Option (List Char × List Char) :=
  let run := (cs.take 5).takeWhile (· = quote)
  if 3 ≤ run.length then some (run.drop 3, cs.drop run.length) else none

/-- Drop blanks and line ends. -/
def skipLines : List Char → List Char
  | [] => []
  | '\r' :: '\n' :: cs => skipLines cs
  | c :: cs => if isBlank c ∨ c = '\n' then skipLines cs else c :: cs

/-- The text behind a backslash that stands last on its line: what follows it up to the next
visible character does not count. -/
def continued? (cs : List Char) : Option (List Char) :=
  (lineEnd? (skipBlanks cs)).map skipLines

theorem length_skipLines (cs : List Char) : (skipLines cs).length ≤ cs.length := by
  fun_induction skipLines cs <;> simp_all <;> omega

theorem length_lt_of_lineEnd? {cs rest : List Char} (h : lineEnd? cs = some rest) :
    rest.length < cs.length := by
  unfold lineEnd? at h
  split at h
  · simp_all
  · simp only [Option.some.injEq] at h
    simp only [← h, List.length_cons]
    omega
  · simp at h

theorem length_le_of_continued? {cs rest : List Char} (h : continued? cs = some rest) :
    rest.length ≤ cs.length := by
  simp only [continued?, Option.map_eq_some_iff] at h
  obtain ⟨a, ha, rfl⟩ := h
  have h1 := length_skipLines a
  have h2 := length_lt_of_lineEnd? ha
  have h3 : (skipBlanks cs).length ≤ cs.length := (List.dropWhile_suffix _).length_le
  omega

/-- A carriage return may stand before a line feed alone. -/
def isLoneReturn (c : Char) (rest : List Char) : Bool := c == '\r' && rest.head? != some '\n'

/-- May a character stand raw in a text over several lines? -/
def mayStand (c : Char) (rest : List Char) : Bool :=
  c == '\n' || (c == '\r' && !isLoneReturn c rest) || !isForbidden c

/-- A text over several lines behind its opening double quotes. -/
def basicLines (cs : List Char) : Option (List Char × List Char) :=
  match cs with
  | [] => none
  | c :: rest =>
    match closing? '\x22' (c :: rest) with
    | some closed => some closed
    | none =>
      if c = '\\' then
        match _hc : continued? rest with
        | some rest => basicLines rest
        | none =>
          match _h : escape rest with
          | none => none
          | some (d, rest) => (basicLines rest).map fun (ds, rest) => (d :: ds, rest)
      else if mayStand c rest then (basicLines rest).map fun (ds, rest) => (c :: ds, rest)
      else none
termination_by cs.length
decreasing_by
  · have := length_le_of_continued? _hc
    simp only [List.length_cons]
    omega
  · have := Text.length_lt_of_escape _h
    simp only [List.length_cons]
    omega
  · simp

/-- A text over several lines behind its opening single quotes. -/
def literalLines : List Char → Option (List Char × List Char)
  | [] => none
  | c :: rest =>
    match closing? '\x27' (c :: rest) with
    | some closed => some closed
    | none =>
      if mayStand c rest then (literalLines rest).map fun (ds, rest) => (c :: ds, rest) else none

/-! ### Texts and names -/

/-- Drop the line end right behind the opening quotes. -/
def dropLineEnd (cs : List Char) : List Char := (lineEnd? cs).getD cs

/-- **A text** at its first quote. -/
def text : List Char → Option (List Char × List Char)
  | '\x22' :: '\x22' :: '\x22' :: cs => basicLines (dropLineEnd cs)
  | '\x27' :: '\x27' :: '\x27' :: cs => literalLines (dropLineEnd cs)
  | '\x22' :: cs => basicTail cs
  | '\x27' :: cs => literalTail cs
  | _ => none

/-- The characters of bare names. -/
def isBare (c : Char) : Bool := c.isAlphanum || c == '_' || c == '-'

/-- **The name of a value.** -/
def name : List Char → Option (List Char × List Char)
  | '\x22' :: cs => basicTail cs
  | '\x27' :: cs => literalTail cs
  | cs =>
    if (cs.takeWhile isBare).isEmpty then none
    else some (cs.takeWhile isBare, cs.dropWhile isBare)

end HttpReplay.Toml
