/-!
# Paths

A path is a text. Slashes divide it into parts; empty parts do not count, except that a slash
in front makes the path absolute and one at the end asks for a directory.

* `HttpReplay.FilePath.parts` are the parts of a path;
* `HttpReplay.FilePath.join` puts a name behind a path;
* `HttpReplay.FilePath.stem` and `HttpReplay.FilePath.extension?` split a name.
-/

namespace HttpReplay.FilePath

/-- Does a path begin at the root? -/
def isAbsolute (path : String) : Bool := path.toList.head? == some '/'

/-- Does a path ask for a directory? -/
def endsWithSlash (path : String) : Bool := path.toList.getLast? == some '/'

/-- The part that is being read, reversed, and the parts behind it. -/
def partsFrom (current : List Char) : List Char → List String
  | [] => [String.ofList current.reverse]
  | c :: cs =>
    if c = '/' then String.ofList current.reverse :: partsFrom [] cs
    else partsFrom (c :: current) cs

/-- **The parts of a path** between its slashes. -/
def parts (path : String) : List String := (partsFrom [] path.toList).filter (· ≠ "")

/-- The parts of a path without the single dots at its end. -/
def dropDots (parts : List String) : List String := (parts.reverse.dropWhile (· = ".")).reverse

/-- The parts of the path above. -/
def parent (parts : List String) : List String := dropDots (dropDots parts).dropLast

/-- A name below a path. -/
def join (path name : String) : String :=
  if path = "" ∨ endsWithSlash path then path ++ name else path ++ "/" ++ name

/-! ### Names -/

/-- A name before and behind its last dot, which may not be its first character. -/
def splitName (name : String) : String × Option String :=
  let cs := name.toList
  let last := (cs.reverse.takeWhile (· ≠ '.')).reverse
  let before := (cs.take (cs.length - last.length)).dropLast
  if before = [] then (name, none) else (String.ofList before, some (String.ofList last))

/-- A name without its extension. -/
def stem (name : String) : String := (splitName name).1

/-- The extension of a name. -/
def extension? (name : String) : Option String := (splitName name).2

theorem length_dropDots_le (parts : List String) : (dropDots parts).length ≤ parts.length := by
  have h := (List.dropWhile_suffix (l := parts.reverse) (· = ".")).length_le
  simpa [dropDots] using h

/-- A path has fewer parts above it than it has itself. -/
theorem length_parent_lt {parts : List String} (h : parts ≠ []) :
    (parent parts).length < parts.length := by
  have h1 := length_dropDots_le parts
  have h2 := length_dropDots_le (dropDots parts).dropLast
  have h3 : 0 < parts.length := List.length_pos_iff.mpr h
  rw [List.length_dropLast] at h2
  unfold parent
  omega

end HttpReplay.FilePath
