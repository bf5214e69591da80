import HttpReplay.Program
import Std.Time.DateTime.Timestamp

/-!
# The command

The program as a command. What the run looks at is loaded into a tree of files first, and what
it changed is written back afterwards; all else happens in `HttpReplay.Program.run`.

Loaded are the places that the settings name, and for the directory of a store what stands in
it.
-/

namespace HttpReplay.Command

/-! ### Loading -/

/-- The time that the clock shows. -/
def now : IO Instant := do
  let t ← Std.Time.Timestamp.now
  return ⟨t.val.second.toInt, t.val.nano.toInt.toNat⟩

/-- The text of a place as a path. -/
def pathOf (place : FilePlace) : String := "/" ++ "/".intercalate place

/-- Load what stands at a place, if anything does. -/
def loadPlace (tree : FileTree) (place : FilePlace) : IO FileTree := do
  let path := (← IO.currentDir) / pathOf place
  if ← path.isDir then return tree.put place .directory
  else if ← path.pathExists then
    return tree.put place (.file (← IO.FS.readBinFile path).data.toList false)
  else return tree

/-- Load what stands on the way from a place on. -/
def loadFrom (tree : FileTree) (place : FilePlace) : List String → IO FileTree
  | [] => return tree
  | part :: parts =>
    if part = "." then loadFrom tree place parts
    else if part = ".." then loadFrom tree place.dropLast parts
    else do loadFrom (← loadPlace tree (place ++ [part])) (place ++ [part]) parts

/-- Load what stands on a path. -/
def load (tree : FileTree) (path : String) : IO FileTree :=
  loadFrom tree (tree.start path) (FilePath.parts path)

/-- Load what stands on a path that may be missing. -/
def loadOptional (tree : FileTree) (path : Option String) : IO FileTree :=
  path.elim (return tree) (load tree)

/-- Load what stands in the directory at the end of a path. -/
def loadDirectory (tree : FileTree) (path : Option String) : IO FileTree := do
  let tree ← loadOptional tree path
  match path.map tree.find with
  | some (.ok (place, .directory)) =>
    let directory := (← IO.currentDir) / pathOf place
    (← directory.readDir).foldlM (fun tree entry => loadPlace tree (place ++ [entry.fileName])) tree
  | _ => return tree

/-- The tree in which only the current directory is known. -/
def emptyTree : IO FileTree := do
  let current := FilePath.parts (← IO.currentDir).toString
  let places := (List.range current.length).map fun n => current.take (n + 1)
  let nothing : FileTree := { nodes := [], current, listedOnce := List.nodup_nil }
  return places.foldl (fun tree place => tree.put place .directory) nothing

/-- Load what a command line is about. -/
def loadAll (environment : Option String) (words : List String) : IO FileTree := do
  let tree ← emptyTree
  match CommandLine.parse environment words with
  | .error _ => return tree
  | .ok arguments =>
    let tree ← loadOptional tree arguments.config
    match Program.settings? environment words tree with
    | none => return tree
    | some s =>
      let tree ← loadOptional tree s.input
      let tree ← loadOptional tree s.output
      loadDirectory tree s.scriptDir

/-! ### Writing back -/

/-- The rights of a script's file: everybody may read and run it, its owner may change it. -/
def scriptRights : IO.FileRight where
  user := { read := true, write := true, execution := true }
  group := { read := true, execution := true }
  other := { read := true, execution := true }

/-- Write what stands at a place. -/
def storePlace (place : FilePlace) (node : FileNode) : IO Unit := do
  let path := (← IO.currentDir) / pathOf place
  match node with
  | .directory => IO.FS.createDirAll path
  | .file content isExecutable =>
    IO.FS.writeBinFile path ⟨content.toArray⟩
    if isExecutable then IO.setAccessRights path scriptRights

/-- Write what a run changed. -/
def storeChanges (before after : FileTree) : IO Unit :=
  after.nodes.forM fun (place, node) => do
    if before.get? place ≠ some node then storePlace place node

end HttpReplay.Command

open HttpReplay in
/-- **The command.** -/
def main (words : List String) : IO UInt32 := do
  let environment ← IO.getEnv Program.scriptDirVariable
  let tree ← Command.loadAll environment words
  let needsInput := (Program.settings? environment words tree).any (·.input.isNone)
  let input ← if needsInput then (← IO.getStdin).readBinToEnd else pure .empty
  let time ← Command.now
  let o := Program.run environment words { now := time, input := input.data.toList, tree }
  Command.storeChanges tree o.tree
  (← IO.getStdout).write ⟨o.output.toArray⟩
  let stderr ← IO.getStderr
  stderr.putStr o.complaint
  stderr.putStr (Program.logText (Program.timedMark time) o.log)
  return o.exitCode.toUInt32
