/-!
# Log records

What the library has to say beside its answers is a list of records, in the order in which
they were made. Nothing is left out when they are made: the reader of a log decides with
`HttpReplay.Log.upTo` how much of it to show.
-/

namespace HttpReplay

namespace Log

/-- How grave a record is, the gravest first. -/
inductive Severity
  | error
  | warn
  | info
  | debug
  | trace
  deriving Repr, DecidableEq

/-- The place of a severity in the order, one for the gravest. -/
def Severity.rank : Severity → Nat
  | .error => 1
  | .warn => 2
  | .info => 3
  | .debug => 4
  | .trace => 5

/-- The name of a severity in a log. -/
def Severity.name : Severity → String
  | .error => "ERROR"
  | .warn => "WARN"
  | .info => "INFO"
  | .debug => "DEBUG"
  | .trace => "TRACE"

/-- One record. -/
structure Record where
  severity : Severity
  message : String
  deriving Repr, DecidableEq

end Log

/-- The records of a run, in order. -/
abbrev Log := List Log.Record

namespace Log

/-- A log of one record. -/
def one (severity : Severity) (message : String) : Log := [⟨severity, message⟩]

/-- The records that a limit on their rank lets through; the limit zero lets none. -/
def upTo (limit : Nat) (log : Log) : Log := log.filter fun r => r.severity.rank ≤ limit

end Log

end HttpReplay
