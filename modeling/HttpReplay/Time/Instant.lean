import HttpReplay.Time.Calendar

/-!
# Instants

The time of a chunk is an instant of UTC with nanoseconds. A leap second is written as a
second nanosecond count on top of the 59th second of its minute, so that the nanoseconds
of an instant run up to two thousand million.
-/

namespace HttpReplay

/-- Seconds since the first of January 1970 and the nanoseconds after them. -/
structure Instant where
  seconds : Int
  nanos : Nat
  deriving Repr, DecidableEq

namespace Instant

/-- The seconds of a day. -/
def daySeconds : Int := 86400

/-- The first of January 1970. -/
def epoch : Instant := ⟨0, 0⟩

/-- The day an instant falls on. -/
def date (t : Instant) : Calendar.Date := Calendar.dateOf (t.seconds / daySeconds)

/-- How many seconds of its day have passed. -/
def secondOfDay (t : Instant) : Nat := (t.seconds % daySeconds).toNat

/-- **An instant of the calendar**: its year is in range, its nanoseconds stay below one
second, or below two on the 59th second of a minute. -/
def IsValid (t : Instant) : Prop :=
  Calendar.inRange t.date.year ∧
    (t.nanos < 1000000000 ∨ t.nanos < 2000000000 ∧ t.secondOfDay % 60 = 59)

end Instant

end HttpReplay
