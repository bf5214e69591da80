import HttpReplay.Files.Tree
import HttpReplay.Settings.Error
import HttpReplay.Settings.Verbosity
import HttpReplay.Toml.Document

/-!
# Settings

Four things can be set for a run: where the streams come from, where the answers go, where the
scripts are saved, and how much of the log is shown. They are set by a TOML document, by the
command line, or not at all; the command line wins.

* `HttpReplay.Settings.ofToml` reads settings from a document;
* `HttpReplay.Settings.apply` lets the command line override them;
* `HttpReplay.Settings.ofArguments` does both.
-/

namespace HttpReplay

/-- **The settings of a run.** -/
structure Settings where
  /-- The file with the streams, instead of the standard input. -/
  input : Option String := none
  /-- The file for the answers, instead of the standard output. -/
  output : Option String := none
  /-- The directory where scripts are saved. -/
  scriptDir : Option String := none
  verbosity : Verbosity := .standard
  deriving Repr, DecidableEq

/-- What the command line asks for. -/
structure Arguments where
  /-- The file with settings. -/
  config : Option String := none
  input : Option String := none
  output : Option String := none
  scriptDir : Option String := none
  /-- The word for the verbosity. -/
  verbosity : Option String := none
  deriving Repr, DecidableEq

namespace Settings

/-! ### Documents -/

/-- The names of the settings in a document. -/
def names : List String := ["input", "output", "script_dir", "log_level"]

/-- What a message says of a name that is no setting. -/
def unknownName (name : String) : String :=
  s!"unknown field {Found.marked name}, expected one of " ++
    ", ".intercalate (names.map Found.marked)

/-- The text that stands for a name, or what a message says of what stands there instead. -/
def textOf (expected : String) : Toml.Item → Except String String
  | .value (.text value) => .ok value
  | .value (.other found) => .error (found.refusal expected)
  | .value (.overflow message) => .error message
  | .value .list => .error (Found.list.refusal expected)
  | .value .object => .error (Found.object.refusal expected)
  | .table .. => .error (Found.object.refusal expected)
  | .tables _ => .error (Found.list.refusal expected)

/-- The verbosity that stands for a name. -/
def verbosityOf (item : Toml.Item) : Except String Verbosity := do
  let word ← textOf "a string" item
  match Verbosity.ofText word with
  | .ok v => return v
  | .error word => throw (SettingsError.verbosity word).message

/-- Set what a name stands for. -/
def set (s : Settings) (source : String) (label : Toml.Label) (item : Toml.Item) :
    Except SettingsError Settings :=
  let path (f : String → Settings) : Except String Settings := (textOf "path string" item).map f
  let result : Except String Settings :=
    match label.name with
    | "input" => path fun p => { s with input := some p }
    | "output" => path fun p => { s with output := some p }
    | "script_dir" => path fun p => { s with scriptDir := some p }
    | _ => (verbosityOf item).map fun v => { s with verbosity := v }
  if label.name ∈ names then result.mapError (.entry source label.span)
  else .error (.entry source label.nameSpan (unknownName label.name))

/-- **The settings of a document.** Its names are taken in alphabetical order. -/
def ofToml (source : String) : Except SettingsError Settings :=
  match Toml.document source with
  | none => .error .document
  | some entries =>
    (entries.mergeSort fun a b => a.1.name ≤ b.1.name).foldlM
      (fun s (label, item) => s.set source label item) {}

/-! ### The command line -/

/-- **Let the command line override settings.** The settings that are left hold the paths also
where the word for the verbosity is none. -/
def apply (s : Settings) (a : Arguments) : Settings × Except SettingsError Unit :=
  let s := { s with
    input := a.input.or s.input
    output := a.output.or s.output
    scriptDir := a.scriptDir.or s.scriptDir }
  match a.verbosity with
  | none => (s, .ok ())
  | some word =>
    match Verbosity.ofText word with
    | .ok v => ({ s with verbosity := v }, .ok ())
    | .error word => (s, .error (.verbosity word))

/-- The settings of a file. -/
def ofFile (tree : FileTree) (path : String) : Except SettingsError Settings :=
  match tree.readText path with
  | .error fault => .error (.io fault)
  | .ok source => ofToml source

/-- **The settings of a run**: those of the file that the command line names, and what the
command line overrides. -/
def ofArguments (tree : FileTree) (a : Arguments) : Except SettingsError Settings := do
  let s ← a.config.elim (.ok {}) (ofFile tree)
  match s.apply a with
  | (s, .ok ()) => return s
  | (_, .error e) => throw e

end Settings

end HttpReplay
