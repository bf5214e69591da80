import HttpReplay.Files.Tree
import HttpReplay.Log
import HttpReplay.Script.Build
import HttpReplay.Text.Numeral

/-!
# The script store

Scripts can be kept in a directory, each in a file of its own that is named for the number of
its stream. A script that is saved takes the place of one that was saved before for the same
stream, and its file is made executable. Files with other names are left alone.

* `HttpReplay.Store.create` makes the directory of a store;
* `HttpReplay.Store.save`, `HttpReplay.Store.get` and `HttpReplay.Store.list` write a script,
  read one, and tell the streams of which there are scripts.
-/

namespace HttpReplay

/-- Why a store could not do what it was asked for. -/
inductive StoreError
  | writeFailed
  | readFailed
  | notFound (id : Nat)
  deriving Repr, DecidableEq

/-- The wording of a failure of a store. -/
def StoreError.message : StoreError → String
  | writeFailed => "Storage write failed"
  | readFailed => "Storage read failed"
  | notFound id => s!"No script stored for stream {id}"

/-- **A store**: the path of its directory. -/
structure Store where
  base : String
  deriving Repr, DecidableEq

namespace Store

/-! ### Names of files -/

/-- What stands before the number of a stream in the name of its file. -/
def namePrefix : List Char := "stream-".toList

/-- The extension of the files of a store. -/
def extension : String := "py"

/-- The name of the file of a stream. -/
def fileName (id : Nat) : String :=
  String.ofList (namePrefix ++ Numeral.decimal id) ++ "." ++ extension

/-- The stream that the name of a file speaks of. -/
def idOfName? (name : String) : Option Nat :=
  if FilePath.extension? name = some extension then
    (namePrefix.isPrefixOf? (FilePath.stem name).toList).bind (Numeral.readWord? 10)
  else none

/-- The path of the file of a stream. -/
def path (s : Store) (id : Nat) : String := FilePath.join s.base (fileName id)

/-! ### Operations

Each operation tells its result and what it has to say in the log; those that write also tell
the tree that they leave. What goes wrong beyond what the tree tells is given to the operation. -/

/-- **Make the directory of a store.** -/
def create (base : String) (tree : FileTree) : Except StoreError Store × FileTree × Log :=
  match tree.createDirectories base with
  | (tree, .ok ()) => (.ok ⟨base⟩, tree, Log.one .info s!"FileStorage initialized at {base}")
  | (tree, .error fault) =>
    (.error .writeFailed, tree,
      Log.one .error s!"Failed to create script dir {base}: {fault.message}")

/-- The failure of a script to be saved, which leaves a tree. -/
def failedSave (tree : FileTree) (action path : String) (fault : IoFault) :
    Except StoreError String × FileTree × Log :=
  (.error .writeFailed, tree, Log.one .error s!"Failed to {action} {path}: {fault.message}")

/-- **Save a script** and tell the path of its file. The file is emptied first, then written, and
made executable last; where one of these fails, what was done before stays done. -/
def save (s : Store) (a : Artifact) (tree : FileTree) (faults : FileTree.WriteFaults := {}) :
    Except StoreError String × FileTree × Log :=
  let path := s.path a.streamId
  match tree.openFile path faults with
  | .error fault => failedSave tree "create script file" path fault
  | .ok (tree, place) =>
    match faults.writing.write (Bytes.ofText a.script) with
    | (taken, .error fault) =>
      failedSave (tree.writeAt place 0 taken) "write script file" path fault
    | (taken, .ok _) =>
      let tree := tree.writeAt place 0 taken
      match faults.permissions with
      | some fault => failedSave tree "set permissions on" path fault
      | none =>
        (.ok path, tree.makeExecutable place,
          Log.one .info
            s!"Saved script for stream {a.streamId} ({a.requests} request(s)) to {path}")

/-- **Read the script of a stream.** -/
def get (s : Store) (id : Nat) (tree : FileTree) : Except StoreError String × Log :=
  let path := s.path id
  match tree.find path with
  | .error _ => (.error (.notFound id), [])
  | .ok _ =>
    match tree.readText path with
    | .error fault => (.error .readFailed, Log.one .error s!"Read failed {path}: {fault.message}")
    | .ok script => (.ok script, Log.one .debug s!"Read {script.utf8ByteSize} byte(s) from {path}")

/-- The numbers that file names speak of, in ascending order. -/
def idsOfNames (names : List String) : List Nat :=
  (names.filterMap idOfName?).mergeSort (· ≤ ·)

/-- **The streams of which there are scripts**, one for each file. Reading the entries of the
directory may fail. -/
def list (s : Store) (tree : FileTree) (entries : Option IoFault := none) :
    Except StoreError (List Nat) × Log :=
  match tree.names s.base, entries with
  | .error fault, _ =>
    (.error .readFailed, Log.one .error s!"Failed to read script dir {s.base}: {fault.message}")
  | .ok _, some fault => (.error .readFailed, Log.one .error s!"Dir entry error: {fault.message}")
  | .ok names, none =>
    let ids := idsOfNames names
    (.ok ids, Log.one .debug s!"Found {ids.length} stored script(s)")

end Store

end HttpReplay
