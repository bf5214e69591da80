import HttpReplay.Session
import HttpReplay.Settings.CommandLine
import HttpReplay.Text.Control

/-!
# The program

A run of the program takes a command line, the environment, the standard input and a tree of
files. It reads the settings, opens what they name, runs a session, and leaves an exit code, the
standard output, the files and a log.

The order in which things are opened shows when something is missing: first the store is made,
then the file for the answers is created, and the input is opened last.

* `HttpReplay.Program.session` is the run once the settings are known;
* `HttpReplay.Program.run` is the whole run.
-/

namespace HttpReplay.Program

/-- The name of the environment variable with the directory for scripts. -/
def scriptDirVariable : String := "REQUESTS_CONVERTER_OUTPUT_DIR"

/-- What the version option shows. -/
def version : String := s!"{converterName} 0.1.0\n"

/-- How the program is called. -/
def usage : String := s!"Usage: {converterName} [OPTIONS]\n"

/-- What the help option shows. -/
def help : String :=
  "Renders captured HTTP streams as Python requests replay scripts\n\n" ++ usage ++
    "\nOptions:\n" ++
    "  -c, --config <CONFIG>          TOML configuration file\n" ++
    "      --input <INPUT>            Read streams from this file instead of standard input\n" ++
    "      --output <OUTPUT>          Write results to this file instead of standard output\n" ++
    "      --script-dir <SCRIPT_DIR>  Directory where every generated script is saved\n" ++
    "      --log-level <LOG_LEVEL>    One of off, error, warn, info, debug, trace\n" ++
    "  -h, --help                     Print help\n" ++
    "  -V, --version                  Print version\n"

/-- What a run leaves. -/
structure Outcome where
  exitCode : Nat
  output : Bytes := []
  tree : FileTree
  /-- The records that are shown. -/
  log : Log := []
  /-- What is said of a command line that is none. -/
  complaint : String := ""

/-- What a run has to work with. -/
structure World where
  /-- The time of the script of a stream without chunks. -/
  now : Instant
  /-- The standard input. -/
  input : Bytes
  tree : FileTree
  /-- What goes wrong with the files of the scripts, in the order in which they are saved. -/
  faults : List FileTree.WriteFaults := []

/-! ### Opening -/

/-- Make the store, if there is to be one. -/
def openStore (s : Settings) (tree : FileTree) :
    Except SessionError (Option Store) × FileTree × Log :=
  match s.scriptDir with
  | none => (.ok none, tree, [])
  | some dir =>
    match Store.create dir tree with
    | (.ok store, tree, log) => (.ok (some store), tree, log)
    | (.error e, tree, log) => (.error (.store e), tree, log)

/-- Create the file for the answers, if there is to be one. -/
def openOutput (s : Settings) (tree : FileTree) :
    Except SessionError (FileTree × Option FilePlace) :=
  match s.output with
  | none => .ok (tree, none)
  | some path =>
    match tree.createFile path with
    | .ok (tree, place) => .ok (tree, some place)
    | .error fault => .error (.io fault)

/-- Open a file with streams: its place, if it is not a directory, which can be opened but not
read. -/
def openInput (path : String) (tree : FileTree) : Except SessionError (Option FilePlace) :=
  match tree.find path with
  | .ok (place, .file ..) => .ok (some place)
  | .ok (_, .directory) => .ok none
  | .error fault => .error (.io fault)

/-- Run a session over the streams that the settings name. -/
def runSession (s : Settings) (input : Bytes) (session : Session) (tree : FileTree) :
    Session.Outcome :=
  match s.input with
  | none => session.run {} tree (Reader.ofBytes input)
  | some path =>
    match openInput path tree with
    | .ok (some place) => session.runFile {} tree place
    | .ok none => session.run {} tree (Reader.ofFault .isDirectory)
    | .error e => ⟨[], tree, [], .error e⟩

/-! ### Runs -/

/-- **Open what the settings name and run a session.** -/
def session (s : Settings) (w : World) : Session.Outcome :=
  match openStore s w.tree with
  | (.error e, tree, log) => ⟨[], tree, log, .error e⟩
  | (.ok store, tree, log) =>
    match openOutput s tree with
    | .error e => ⟨[], tree, log, .error e⟩
    | .ok (tree, file) =>
      let o := runSession s w.input { now := w.now, store, file, faults := w.faults } tree
      { o with log := log ++ o.log }

/-- What the log says at the end of a run. -/
def report : Except SessionError Summary → Log
  | .ok n => Log.one .info
      s!"Done: {n.streams} stream(s), {n.chunks} chunk(s) written, {n.saved} script(s) saved"
  | .error e => Log.one .error s!"Conversion failed: {e.message}"

/-- A run with settings. Answers that go to a file do not show on the standard output. -/
def runWith (s : Settings) (w : World) : Outcome :=
  let o := session s w
  let log := Log.one .info "Configuration imported successfully" ++ o.log ++ report o.result
  { exitCode := if o.result.isOk then 0 else 1
    output := if s.output.isSome then [] else o.output
    tree := o.tree
    log := s.verbosity.shown log }

/-- The settings of a run, if it has any. -/
def settings? (environment : Option String) (words : List String) (tree : FileTree) :
    Option Settings :=
  (CommandLine.parse environment words).toOption.bind fun arguments =>
    (Settings.ofArguments tree arguments).toOption

/-- **Run the program.** -/
def run (environment : Option String) (words : List String) (w : World) : Outcome :=
  match CommandLine.parse environment words with
  | .error .version => { exitCode := 0, output := Bytes.ofText version, tree := w.tree }
  | .error .help => { exitCode := 0, output := Bytes.ofText help, tree := w.tree }
  | .error stop =>
    { exitCode := stop.exitCode, tree := w.tree, complaint := s!"error: {stop.message}\n\n{usage}" }
  | .ok arguments =>
    match Settings.ofArguments w.tree arguments with
    | .ok s => runWith s w
    | .error e =>
      { exitCode := 1, tree := w.tree
        log := Verbosity.standard.shown
          (Log.one .error s!"Unable to import configuration: {e.message}") }

/-! ### Showing the log -/

/-- The lines of a message, all but the first set in by four spaces. -/
def messageLines (message : String) : List String :=
  match message.splitOn "\n" with
  | [] => []
  | first :: rest => first :: rest.map ("    " ++ ·)

/-- The text of a record behind its mark, which is made from the severity. -/
def recordText (mark : String → String) (r : Log.Record) : String :=
  mark r.severity.name ++ " " ++ "\n".intercalate (messageLines r.message) ++ "\n"

/-- **The text of a log**, with a mark in front of each record. Commands to a terminal that a
record holds are left out, which may take the end of its line with them. -/
def logText (mark : String → String) (log : Log) : String :=
  String.ofList (log.flatMap fun r => Text.Control.shown (recordText mark r).toList)

/-- The mark of a record that shows the time: the name of the severity fills five places. -/
def timedMark (time : Instant) (severity : String) : String :=
  let filled := severity.toList ++ List.replicate (5 - severity.length) ' '
  "[" ++ String.ofList (Rfc3339.render { time with nanos := 0 } ++ ' ' :: filled) ++ "]"

end HttpReplay.Program
