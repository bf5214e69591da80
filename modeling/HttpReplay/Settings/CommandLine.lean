import HttpReplay.Settings.Basic

/-!
# The command line

The command line consists of options, each of which takes one value and may be given once. The
value of an option stands in the next word or behind an equals sign; the option `-c` also takes
what follows it in the same word. A word that begins with a dash is never the value of the word
before it, unless it is the dash alone. Nothing but options may be given, with or without two
dashes in front.

A word that is no option is refused at once. What is wrong with an option and its value, that it
was given before or lacks a value, shows only when the next option or the end is reached.

* `HttpReplay.CommandLine.parse` reads a command line;
* `HttpReplay.CommandLine.Stop` lists the reasons not to start a run.
-/

namespace HttpReplay.CommandLine

/-- **Why a run is not started.** -/
inductive Stop
  /-- The help was asked for. -/
  | help
  /-- The version was asked for. -/
  | version
  /-- An option without a value, or with one that it cannot have. -/
  | invalidValue
  /-- A word that is no option. -/
  | unknownArgument
  /-- An option that was given before. -/
  | conflict
  /-- A value for an option that takes none. -/
  | tooManyValues
  deriving Repr, DecidableEq

/-- The exit code of a run that is not started. -/
def Stop.exitCode : Stop → Nat
  | help => 0
  | version => 0
  | _ => 2

/-- The wording of a reason. -/
def Stop.message : Stop → String
  | help => "help was asked for"
  | version => "the version was asked for"
  | invalidValue => "a value is required for an option but none was supplied"
  | unknownArgument => "unexpected argument found"
  | conflict => "an option cannot be used multiple times"
  | tooManyValues => "unexpected value for an option that takes none"

/-! ### Options -/

/-- The options that take a value. -/
inductive Flag
  | config
  | input
  | output
  | scriptDir
  | verbosity
  deriving Repr, DecidableEq

/-- The name of an option behind two dashes. -/
def Flag.name : Flag → String
  | config => "config"
  | input => "input"
  | output => "output"
  | scriptDir => "script-dir"
  | verbosity => "log-level"

/-- All options. -/
def Flag.all : List Flag := [config, input, output, scriptDir, verbosity]

/-- The value of an option, if it was given. -/
def Flag.get? (f : Flag) (a : Arguments) : Option String :=
  match f with
  | config => a.config
  | input => a.input
  | output => a.output
  | scriptDir => a.scriptDir
  | verbosity => a.verbosity

/-- Give an option a value. -/
def Flag.set (f : Flag) (value : String) (a : Arguments) : Arguments :=
  match f with
  | config => { a with config := some value }
  | input => { a with input := some value }
  | output => { a with output := some value }
  | scriptDir => { a with scriptDir := some value }
  | verbosity => { a with verbosity := some value }

/-- What a name behind two dashes means. -/
inductive Long
  | flag (f : Flag)
  | stop (s : Stop)
  | unknown
  deriving Repr, DecidableEq

/-- The meaning of a name behind two dashes. -/
def Long.ofName (name : String) : Long :=
  if name = "help" then stop .help
  else if name = "version" then stop .version
  else
    match Flag.all.find? (·.name == name) with
    | some f => flag f
    | none => unknown

/-! ### Words -/

/-- A command line as far as it has been read. -/
structure Scan where
  given : Arguments := {}
  /-- The last option and its value, while it is not settled. -/
  pending : Option (Flag × Option String) := none
  deriving Repr

namespace Scan

/-- Settle an option with its value. Only the word for the verbosity may be empty. -/
def take (s : Scan) (f : Flag) (value : String) : Except Stop Scan :=
  if (f.get? s.given).isSome then .error .conflict
  else if value = "" ∧ f ≠ .verbosity then .error .invalidValue
  else .ok { s with given := f.set value s.given }

/-- Settle the last option. -/
def settle (s : Scan) : Except Stop Scan :=
  match s.pending with
  | none => .ok s
  | some (_, none) => .error .invalidValue
  | some (f, some value) => ({ s with pending := none }).take f value

/-- An option with or without a value in the same word. -/
def option (s : Scan) (f : Flag) (value : Option String) : Except Stop Scan := do
  let s ← s.settle
  match value with
  | none => return { s with pending := some (f, none) }
  | some value => s.take f value

/-- Leave off, once the last option is settled. -/
def stop (s : Scan) (reason : Stop) : Except Stop Scan := do
  let _ ← s.settle
  throw reason

/-- What stands behind two dashes, before and behind the first equals sign. -/
def splitLong (cs : List Char) : String × Option String :=
  let name := String.ofList (cs.takeWhile (· ≠ '='))
  match cs.dropWhile (· ≠ '=') with
  | [] => (name, none)
  | _ :: value => (name, some (String.ofList value))

/-- A word behind its two dashes. -/
def long (s : Scan) (cs : List Char) : Except Stop Scan :=
  let (name, value) := splitLong cs
  match Long.ofName name, value with
  | .flag f, _ => s.option f value
  | .stop reason, none => s.stop reason
  | .stop _, some _ => .error .tooManyValues
  | .unknown, _ => .error .unknownArgument

/-- Drop one equals sign. -/
def dropEquals : List Char → List Char
  | '=' :: cs => cs
  | cs => cs

/-- A word behind its single dash, of which the first letter tells the option. -/
def short (s : Scan) (c : Char) (rest : List Char) : Except Stop Scan :=
  if c = 'c' then
    if rest = [] then s.option .config none
    else s.option .config (some (String.ofList (dropEquals rest)))
  else if c = 'h' then s.stop .help
  else if c = 'V' then s.stop .version
  else .error .unknownArgument

/-- A word that is no option: the value of the option before it. -/
def value (s : Scan) (word : String) : Except Stop Scan :=
  match s.pending with
  | some (f, none) => .ok { s with pending := some (f, some word) }
  | _ => .error .unknownArgument

/-- A word. -/
def word (s : Scan) (w : String) : Except Stop Scan :=
  match w.toList with
  | '-' :: '-' :: cs => s.long cs
  | '-' :: c :: rest => s.short c rest
  | _ => s.value w

/-- The words of a command line. Behind two dashes alone there may be nothing more. -/
def words (s : Scan) : List String → Except Stop Scan
  | [] => s.settle
  | w :: ws =>
    if w = "--" then if ws = [] then s.settle else .error .unknownArgument
    else (s.word w).bind fun s => s.words ws

end Scan

/-- **Read a command line.** The directory for scripts is taken from the environment where the
command line does not tell it. -/
def parse (environment : Option String) (words : List String) : Except Stop Arguments := do
  let s ← Scan.words {} words
  match s.given.scriptDir, environment with
  | none, some dir => return (← ({ given := s.given : Scan }).take .scriptDir dir).given
  | _, _ => return s.given

end HttpReplay.CommandLine
