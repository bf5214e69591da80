import HttpReplay.Log
import HttpReplay.Text.Space

/-!
# Verbosity

How much of the log is shown is set by a word, the name of the least grave severity that is
still shown. The word may be written in any case and with white space around it.
-/

namespace HttpReplay

/-- **How much of the log is shown**: nothing, or all records up to a severity. -/
inductive Verbosity
  | off
  | upTo (severity : Log.Severity)
  deriving Repr, DecidableEq

namespace Verbosity

/-- The verbosity of a run that asks for none. -/
def standard : Verbosity := upTo .info

/-- The limit on the rank of the records that are shown. -/
def limit : Verbosity → Nat
  | off => 0
  | upTo severity => severity.rank

/-- The verbosities by their words. -/
def words : List (String × Verbosity) :=
  [("off", off), ("error", upTo .error), ("warn", upTo .warn), ("warning", upTo .warn),
    ("info", upTo .info), ("debug", upTo .debug), ("trace", upTo .trace)]

/-- A word in the form in which it is looked up. -/
def plainForm (text : String) : String :=
  String.ofList ((Text.trim text.toList).map Text.lower)

/-- **The verbosity of a word**, or the word as it was looked up. -/
def ofText (text : String) : Except String Verbosity :=
  match words.lookup (plainForm text) with
  | some v => .ok v
  | none => .error (plainForm text)

/-- The records of a log that are shown. -/
def shown (v : Verbosity) (log : Log) : Log := log.upTo v.limit

end Verbosity

end HttpReplay
