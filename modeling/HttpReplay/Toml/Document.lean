import HttpReplay.Toml.Quoted
import HttpReplay.Toml.Table

/-!
# TOML documents

A document is a sequence of lines, each of which is blank, a named value, or a header, with or
without a comment behind it. Lists and tables in brackets may run over several lines and may end
with a comma.

Only the names and values of the document's own table are of use here. Everything else is read
to see that the document is one.

* `HttpReplay.Toml.value` reads a value;
* `HttpReplay.Toml.document` reads a document.
-/

namespace HttpReplay.Toml

/-- The stretch between two points of a text, which are given by what follows them. -/
def spanOf (before after : List Char) : Span := ⟨before.length, after.length⟩

/-! ### Between the values -/

/-- Drop blanks, line ends and comments. -/
def skipTrivia (isComment : Bool) : List Char → Option (List Char)
  | [] => some []
  | c :: cs =>
    if c = '\n' then skipTrivia false cs
    else if c = '\r' then if cs.head? = some '\n' then skipTrivia isComment cs else none
    else if isComment then if isForbidden c then none else skipTrivia true cs
    else if c = '#' then skipTrivia true cs
    else if isBlank c then skipTrivia false cs
    else some (c :: cs)

/-- Drop a comment up to the end of its line. -/
def skipComment : List Char → Option (List Char)
  | [] => some []
  | c :: cs =>
    if (lineEnd? (c :: cs)).isSome then some (c :: cs)
    else if isForbidden c then none
    else skipComment cs

/-- Drop the rest of a line, which holds nothing but blanks and a comment. -/
def skipLine (cs : List Char) : Option (List Char) :=
  match skipBlanks cs with
  | [] => some []
  | '#' :: cs => (skipComment cs).map fun cs => (lineEnd? cs).getD cs
  | cs => lineEnd? cs

/-! ### Names -/

/-- A name with its place. -/
def label (cs : List Char) : Option (Label × List Char) := do
  let (chars, rest) ← name cs
  let span := spanOf cs rest
  return (⟨String.ofList chars, span, span⟩, rest)

/-- Names with dots between them, at most so many: all but the last, and the last. -/
def labelsUpTo : Nat → List Char → Option (List Label × Label × List Char)
  | 0, _ => none
  | n + 1, cs => do
    let (first, rest) ← label cs
    match skipBlanks rest with
    | '.' :: rest =>
      let (path, last, rest) ← labelsUpTo n (skipBlanks rest)
      return (first :: path, last, rest)
    | rest => return ([], first, rest)

/-- How deep brackets may nest, and how many names dots may join. -/
def depthLimit : Nat := 80

/-- **Names with dots between them.** -/
def labels (cs : List Char) : Option (List Label × Label × List Char) := labelsUpTo depthLimit cs

/-! ### Values -/

/-- What is read of an element of a list or a table in brackets, onto what was read before. -/
abbrev Element (σ : Type) : Type := σ → List Char → Option (σ × List Char)

/-- Elements with commas between them, at most so many, up to the closing bracket. -/
def elements {σ : Type} (close : Char) (element : Element σ) : Nat → Element σ
  | 0, _, _ => none
  | n + 1, s, cs => do
    match ← skipTrivia false cs with
    | [] => none
    | c :: cs =>
      if c = close then return (s, cs)
      else
        let (s, rest) ← element s (c :: cs)
        match ← skipTrivia false rest with
        | [] => none
        | d :: rest =>
          if d = close then return (s, rest)
          else if d = ',' then elements close element n s rest
          else none

/-- A name, an equals sign and a value, with what may stand around the equals sign. -/
def named (skip : List Char → Option (List Char)) (value : List Char → Option (Value × List Char))
    (cs : List Char) : Option (List Label × Label × Value × List Char) := do
  let (path, last, rest) ← labels cs
  let start ← skip (← expect '=' (← skip rest))
  let (v, rest) ← value start
  return (path, { last with span := spanOf start rest }, v, rest)

/-- **A value** with brackets nested to at most a given depth. -/
def value : Nat → List Char → Option (Value × List Char)
  | depth, cs =>
    match depth, cs with
    | depth + 1, '[' :: rest => do
      let element : Element Unit := fun _ cs => (value depth cs).map fun (_, rest) => ((), rest)
      let (_, rest) ← elements ']' element (rest.length + 1) () rest
      return (.list, rest)
    | depth + 1, '{' :: rest => do
      let element : Element Entries := fun es cs => do
        let (path, label, v, rest) ← named (skipTrivia false) (value depth) cs
        return (← es.add path label v, rest)
      let (_, rest) ← elements '}' element (rest.length + 1) [] rest
      return (.object, rest)
    | _, _ =>
      if cs.head? = some '\x22' ∨ cs.head? = some '\x27' then
        (text cs).map fun (chars, rest) => (.text (String.ofList chars), rest)
      else plain cs

/-! ### Documents -/

/-- A header behind its opening bracket or brackets; `start` is the text from there on. -/
def header (start : List Char) (isList : Bool) (cs : List Char) : Option (Header × List Char) := do
  let (path, last, rest) ← labels (skipBlanks cs)
  let rest ← expect ']' rest
  let rest ← if isList then expect ']' rest else some rest
  return ({ path, label := { last with span := spanOf start rest }, isList }, rest)

/-- One line. -/
def line (d : Draft) (cs : List Char) : Option (Draft × List Char) := do
  match skipBlanks cs with
  | '[' :: '[' :: rest =>
    let (h, rest) ← header (skipBlanks cs) true rest
    return (← d.openTable h, ← skipLine rest)
  | '[' :: rest =>
    let (h, rest) ← header (skipBlanks cs) false rest
    return (← d.openTable h, ← skipLine rest)
  | cs =>
    match skipLine cs with
    | some rest => return (d, rest)
    | none =>
      let (path, label, v, rest) ← named (some ∘ skipBlanks) (value depthLimit) cs
      return (← d.add path label v, ← skipLine rest)

/-- Lines, at most so many. -/
def lines : Nat → Draft → List Char → Option Draft
  | 0, d, _ => some d
  | n + 1, d, cs =>
    match cs with
    | [] => some d
    | _ => (line d cs).bind fun (d, rest) => lines n d rest

/-- Drop the mark of the byte order in front. -/
def dropMark : List Char → List Char
  | '\ufeff' :: cs => cs
  | cs => cs

/-- **A document**: what its names stand for, in the order in which they came up. Every line takes a
character or more, so there are no more of them than characters. -/
def document (source : String) : Option Entries := do
  let cs := dropMark source.toList
  let d ← lines cs.length {} cs
  d.close

end HttpReplay.Toml
