import HttpReplay.Toml.Scalar

/-!
# Tables in TOML

A document is a table of named values, and a value may be a table again. A table comes about in
one of three ways: a header states it, a header of a table below it implies it, or the dots in
the name of a value ask for it. Which of them decides what may still be added to it.

* A header may state a table that was only implied before, once.
* A name with dots may add to tables that dots asked for, and pass through tables that were
  implied, but not touch a table that was stated.
* A table that stands between braces is complete.
* The headers in double brackets make a list of tables, and what follows belongs to the last.

* `HttpReplay.Toml.Draft` is a document as far as it has been read;
* `HttpReplay.Toml.Draft.openTable` and `HttpReplay.Toml.Draft.add` take a header and a value;
* `HttpReplay.Toml.Draft.close` is what the names stand for at the end.
-/

namespace HttpReplay.Toml

/-- A stretch of a text: how many characters are unread before it and behind it. -/
structure Span where
  before : Nat
  after : Nat
  deriving Repr, DecidableEq

/-- What is known of a named value beside the value: its name, where the name stands, and where
the value stands. -/
structure Label where
  name : String
  nameSpan : Span
  span : Span
  deriving Repr, DecidableEq

/-- How a table came about. -/
inductive Origin
  | implied
  | dotted
  | stated
  deriving Repr, DecidableEq

/-- What a name stands for. -/
inductive Item
  | value (value : Value)
  | table (origin : Origin) (entries : List (Label × Item))
  /-- A list of tables, of which only the last can still grow. -/
  | tables (last : List (Label × Item))

/-- The named values of a table, in the order in which their names came up. -/
abbrev Entries := List (Label × Item)

namespace Entries

/-- What a name stands for. -/
def item? (name : String) (es : Entries) : Option Item :=
  (es.find? fun e => e.1.name == name).map (·.2)

/-- Let a name that is there stand for something else. -/
def replace (name : String) (item : Item) (es : Entries) : Entries :=
  es.map fun e => if e.1.name == name then (e.1, item) else e

/-- Take a name out. -/
def without (name : String) (es : Entries) : Entries := es.filter fun e => e.1.name != name

/-- **Work inside the table that names lead to**, starting from a table of a given origin.
Tables that are missing on the way are made. -/
def within {α : Type} (origin : Origin) (work : Origin → Entries → Option (α × Entries)) :
    List Label → Origin → Entries → Option (α × Entries)
  | [], here, es => work here es
  | k :: ks, _, es =>
    match item? k.name es with
    | none => do
      let (a, inner) ← within origin work ks origin []
      return (a, es ++ [(k, .table origin inner)])
    | some (.table found inner) => do
      guard (¬ (origin = .dotted ∧ found = .stated))
      let (a, inner) ← within origin work ks found inner
      return (a, replace k.name (.table found inner) es)
    | some (.tables inner) => do
      let (a, inner) ← within origin work ks .stated inner
      return (a, replace k.name (.tables inner) es)
    | some (.value _) => none

/-- Add a named value to a table. Only a name with dots may add to a table that dots asked for,
and to no other. -/
def add (path : List Label) (label : Label) (value : Value) (es : Entries) : Option Entries :=
  (within .dotted (fun origin es => do
    guard ((origin = .dotted) ↔ path ≠ [])
    guard (item? label.name es).isNone
    return ((), es ++ [(label, .value value)])) path .stated es).map (·.2)

end Entries

/-! ### Documents -/

/-- A header: the names that lead to its table, the last of them, and whether the table belongs
to a list. -/
structure Header where
  path : List Label
  label : Label
  isList : Bool
  deriving Repr

/-- **A document as far as it has been read.** The table that the last header opened is put in
its place when the next header comes. -/
structure Draft where
  root : Entries := []
  header : Option Header := none
  opened : Entries := []

namespace Draft

/-- Put the open table in its place: what the names of the whole document stand for. -/
def close (d : Draft) : Option Entries :=
  match d.header with
  | none => some d.opened
  | some h =>
    (Entries.within .implied (fun _ es =>
      if h.isList then
        match Entries.item? h.label.name es with
        | none => some ((), es ++ [(h.label, .tables d.opened)])
        | some (.tables _) => some ((), Entries.replace h.label.name (.tables d.opened) es)
        | some _ => none
      else some ((), es ++ [(h.label, .table .stated d.opened)])) h.path .stated d.root).map (·.2)

/-- Take out a table that was implied and is stated now. -/
def takeImplied (h : Header) (root : Entries) : Option (Entries × Entries) :=
  Entries.within .implied (fun _ es =>
    match Entries.item? h.label.name es with
    | none => some ([], es)
    | some (.table .implied inner) => some (inner, Entries.without h.label.name es)
    | some _ => none) h.path .stated root

/-- **A header.** -/
def openTable (d : Draft) (h : Header) : Option Draft := do
  let root ← d.close
  if h.isList then return { d with root, header := some h, opened := [] }
  else
    let (opened, root) ← takeImplied h root
    return { d with root, header := some h, opened }

/-- **A named value.** -/
def add (d : Draft) (path : List Label) (label : Label) (value : Value) : Option Draft := do
  let opened ← d.opened.add path label value
  return { d with opened }

end Draft

end HttpReplay.Toml
