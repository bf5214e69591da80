/-!
# Header maps

The header fields of a message are a map from names to values that remembers the order in
which its names came up. A name that comes up again keeps its place and takes the later
value. Names are compared character by character, so `Host` and `host` are two names.

* `HttpReplay.Headers.insert` sets one name, `HttpReplay.Headers.ofList` a list of them;
* `HttpReplay.Headers.get?` looks a name up.
-/

namespace HttpReplay

/-- Names with their values, in the order in which the names first came up. -/
structure Headers where
  entries : List (String × String) := []
  deriving Repr, DecidableEq

namespace Headers

/-- The map without names. -/
def empty : Headers := ⟨[]⟩

/-- Give a name a value in a list of entries: in its place, or else at the end. -/
def insertEntry (name value : String) : List (String × String) → List (String × String)
  | [] => [(name, value)]
  | (k, v) :: rest =>
    if k = name then (k, value) :: rest else (k, v) :: insertEntry name value rest

/-- Give a name a value. -/
def insert (h : Headers) (name value : String) : Headers := ⟨insertEntry name value h.entries⟩

/-- The map that a list of names and values leaves behind. -/
def ofList (pairs : List (String × String)) : Headers :=
  pairs.foldl (fun h (name, value) => h.insert name value) empty

/-- The value of a name. -/
def get? (h : Headers) (name : String) : Option String :=
  (h.entries.find? fun entry => entry.1 == name).map (·.2)

/-- How many names there are. -/
def size (h : Headers) : Nat := h.entries.length

/-- Is there no name at all? -/
def isEmpty (h : Headers) : Bool := h.entries.isEmpty

/-- The names, in order. -/
def names (h : Headers) : List String := h.entries.map (·.1)

end Headers

end HttpReplay
