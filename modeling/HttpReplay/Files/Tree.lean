import HttpReplay.Files.Path
import HttpReplay.Sink

/-!
# File trees

What the library does to files is described on a tree of files and directories. A place in
the tree is the list of names that lead to it from the root; the root itself, the empty list,
is always a directory. Paths that are not absolute begin at the current directory.

A tree tells why a path leads nowhere. It does not tell what else may go wrong with a file that is
to be written: who owns it, and how much it can hold. So these faults are given beside the tree.

* `HttpReplay.FileTree.get?` is what stands at a place, `HttpReplay.FileTree.put` puts
  something there;
* `HttpReplay.FileTree.find` follows a path to what stands there;
* `HttpReplay.FileTree.createFile`, `HttpReplay.FileTree.createDirectories`,
  `HttpReplay.FileTree.readFile` and `HttpReplay.FileTree.names` do what their names say, or
  fail as the operating system does;
* `HttpReplay.FileTree.WriteFaults` is what else may go wrong with a file that is written.
-/

namespace HttpReplay

/-- What stands at a place of a tree. -/
inductive FileNode
  | directory
  | file (content : Bytes) (isExecutable : Bool)
  deriving Repr, DecidableEq

/-- Is it a directory? -/
def FileNode.isDirectory : FileNode → Bool
  | directory => true
  | file .. => false

/-- A place in a tree: the names that lead to it from the root. -/
abbrev FilePlace := List String

/-- **A tree of files.** -/
structure FileTree where
  /-- What stands at the places below the root. -/
  nodes : List (FilePlace × FileNode)
  /-- Where paths begin that are not absolute. -/
  current : FilePlace
  /-- Every place is listed once. -/
  listedOnce : (nodes.map (·.1)).Nodup := by decide
  deriving Repr, DecidableEq

namespace FileTree

/-! ### Places -/

/-- What stands at a place. -/
def get? (t : FileTree) (place : FilePlace) : Option FileNode :=
  if place = [] then some .directory else t.nodes.lookup place

/-- What is put at a place takes the place of what is listed there. -/
theorem nodup_put {nodes : List (FilePlace × FileNode)} (h : (nodes.map (·.1)).Nodup)
    (place : FilePlace) (node : FileNode) :
    ((nodes.filter (·.1 ≠ place) ++ [(place, node)]).map (·.1)).Nodup := by
  rw [List.map_append, List.nodup_append]
  refine ⟨h.sublist (List.filter_sublist.map _), List.pairwise_singleton _ _, ?_⟩
  intro p hp q hq
  obtain rfl : q = place := List.mem_singleton.mp hq
  obtain ⟨x, hx, rfl⟩ := List.mem_map.mp hp
  exact of_decide_eq_true (List.mem_filter.mp hx).2

/-- Put something at a place. -/
def put (t : FileTree) (place : FilePlace) (node : FileNode) : FileTree where
  nodes := t.nodes.filter (·.1 ≠ place) ++ [(place, node)]
  current := t.current
  listedOnce := nodup_put t.listedOnce place node

/-- The names of what stands directly below a place. -/
def namesBelow (t : FileTree) (place : FilePlace) : List String :=
  t.nodes.filterMap fun (p, _) => if p.dropLast = place then p.getLast? else none

/-! ### Following paths -/

/-- The length of the longest name, in bytes. -/
def longestName : Nat := 255

/-- The length of the longest path, in bytes. -/
def longestPath : Nat := 4095

/-- Go from a directory to one of its parts. -/
def step (t : FileTree) (place : FilePlace) (part : String) :
    Except IoFault (FilePlace × FileNode) :=
  if part = "." then .ok (place, .directory)
  else if part = ".." then .ok (place.dropLast, .directory)
  else if longestName < part.utf8ByteSize then .error .nameTooLong
  else
    match t.get? (place ++ [part]) with
    | some node => .ok (place ++ [part], node)
    | none => .error .notFound

/-- Follow the parts of a path through directories. -/
def descend (t : FileTree) (place : FilePlace) : List String → Except IoFault FilePlace
  | [] => .ok place
  | part :: parts => do
    match ← t.step place part with
    | (place, .directory) => t.descend place parts
    | (_, .file ..) => throw .notDirectory

/-- Where a path begins. -/
def start (t : FileTree) (path : String) : FilePlace :=
  if FilePath.isAbsolute path then [] else t.current

/-- Refuse the paths that nothing can have. -/
def checkPath (path : String) : Except IoFault Unit :=
  if '\x00' ∈ path.toList then .error .zeroInPath
  else if path = "" then .error .notFound
  else if longestPath < path.utf8ByteSize then .error .nameTooLong
  else .ok ()

/-- **Follow a path** to what stands there. -/
def find (t : FileTree) (path : String) : Except IoFault (FilePlace × FileNode) := do
  checkPath path
  match (FilePath.parts path).reverse with
  | [] => return (t.start path, .directory)
  | last :: above =>
    let place ← t.descend (t.start path) above.reverse
    let (place, node) ← t.step place last
    if FilePath.endsWithSlash path ∧ ¬ node.isDirectory then throw .notDirectory
    return (place, node)

/-- Is there a directory at the end of a path? -/
def isDirectory (t : FileTree) (path : String) : Bool :=
  match t.find path with
  | .ok (_, node) => node.isDirectory
  | .error _ => false

/-! ### Operations -/

/-- Make a single directory, of which the parts are given. -/
def makeDirectory (t : FileTree) (start : FilePlace) (parts : List String) :
    Except IoFault FileTree :=
  match parts.reverse with
  | [] => .error .exists
  | last :: above => do
    let place ← t.descend start above.reverse
    match t.step place last with
    | .ok _ => throw .exists
    | .error .notFound => return t.put (place ++ [last]) .directory
    | .error fault => throw fault

/-- Do parts lead to a directory? -/
def leadsToDirectory (t : FileTree) (start : FilePlace) (parts : List String) : Bool :=
  match t.descend start parts with
  | .ok _ => true
  | .error _ => false

/-- Make a directory and those above it, as far as they are missing. The tree that is left
holds what could be made. -/
def makeDirectories (t : FileTree) (start : FilePlace) (parts : List String) :
    FileTree × Except IoFault Unit :=
  if _h : parts = [] then (t, .ok ())
  else
    match t.makeDirectory start parts with
    | .ok t => (t, .ok ())
    | .error .notFound =>
      match makeDirectories t start (FilePath.parent parts) with
      | (t, .error fault) => (t, .error fault)
      | (t, .ok ()) =>
        match t.makeDirectory start parts with
        | .ok t => (t, .ok ())
        | .error fault => (t, if t.leadsToDirectory start parts then .ok () else .error fault)
    | .error fault => (t, if t.leadsToDirectory start parts then .ok () else .error fault)
termination_by parts.length
decreasing_by exact FilePath.length_parent_lt _h

/-- **Make a directory** with all those above it; one that is there is left alone. The empty
path asks for nothing. -/
def createDirectories (t : FileTree) (path : String) : FileTree × Except IoFault Unit :=
  if path = "" then (t, .ok ())
  else
    match checkPath path with
    | .error fault => (t, .error fault)
    | .ok () => t.makeDirectories (t.start path) (FilePath.parts path)

/-- The place of a file that is to be written: what stands there is a file or nothing. A path
that asks for a directory is refused before its last part is looked at. -/
def placeForFile (t : FileTree) (path : String) : Except IoFault FilePlace := do
  checkPath path
  match (FilePath.parts path).reverse with
  | [] => throw .isDirectory
  | last :: above =>
    let place ← t.descend (t.start path) above.reverse
    if FilePath.endsWithSlash path then throw .isDirectory
    match t.step place last with
    | .ok (_, .directory) => throw .isDirectory
    | .ok (place, .file ..) => return place
    | .error .notFound => return place ++ [last]
    | .error fault => throw fault

/-- **Create an empty file**, or empty the one that is there, and tell its place. -/
def createFile (t : FileTree) (path : String) : Except IoFault (FileTree × FilePlace) := do
  let place ← t.placeForFile path
  let isExecutable :=
    match t.get? place with
    | some (.file _ isExecutable) => isExecutable
    | _ => false
  return (t.put place (.file [] isExecutable), place)

/-- Bytes in which some are replaced from an offset on; zeros fill a gap before it. -/
def overlay (content : Bytes) (offset : Nat) (bytes : Bytes) : Bytes :=
  content.take offset ++ List.replicate (offset - content.length) 0 ++ bytes ++
    content.drop (offset + bytes.length)

/-- Write to a file from an offset on. -/
def writeAt (t : FileTree) (place : FilePlace) (offset : Nat) (bytes : Bytes) : FileTree :=
  match t.get? place with
  | some (.file content isExecutable) =>
    t.put place (.file (overlay content offset bytes) isExecutable)
  | _ => t

/-- **What goes wrong with a file** that is to be written, beyond what the tree tells. -/
structure WriteFaults where
  /-- Why it is not opened. -/
  opening : Option IoFault := none
  /-- How much can be written to it. -/
  writing : Sink := {}
  /-- Why its permissions are not set. -/
  permissions : Option IoFault := none
  deriving Repr, DecidableEq

/-- **Open a file** to write it from its start on. -/
def openFile (t : FileTree) (path : String) (faults : WriteFaults) :
    Except IoFault (FileTree × FilePlace) :=
  match faults.opening with
  | some fault => .error fault
  | none => t.createFile path

/-- Make a file executable. -/
def makeExecutable (t : FileTree) (place : FilePlace) : FileTree :=
  match t.get? place with
  | some (.file content _) => t.put place (.file content true)
  | _ => t

/-- **Read a file.** -/
def readFile (t : FileTree) (path : String) : Except IoFault Bytes := do
  match ← t.find path with
  | (_, .file content _) => return content
  | (_, .directory) => throw .isDirectory

/-- Read a file that holds text. -/
def readText (t : FileTree) (path : String) : Except IoFault String := do
  match Bytes.text? (← t.readFile path) with
  | some text => return text
  | none => throw .invalidText

/-- **The names in a directory.** -/
def names (t : FileTree) (path : String) : Except IoFault (List String) := do
  match ← t.find path with
  | (place, .directory) => return t.namesBelow place
  | (_, .file ..) => throw .notDirectory

end FileTree

end HttpReplay
