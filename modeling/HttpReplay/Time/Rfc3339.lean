import HttpReplay.Text.Numeral
import HttpReplay.Text.Space
import HttpReplay.Time.Instant

/-!
# Instants in text

Instants are written as RFC 3339 asks, in UTC with the offset `Z`, with three, six or nine
digits of the second where they are needed and with a sign before years of other than
four digits.

Reading is more generous than RFC 3339. White space may stand before every number and
separator, the letter between date and time may be `T`, `t` or a space, the numbers may
have fewer digits than usual, and the offset may be `Z`, `z`, `UTC` or hours and minutes
with or without a colon between them. What stays strict is the order of the parts and the
range of each.

* `HttpReplay.Rfc3339.render` writes, `HttpReplay.Rfc3339.read` reads;
* `HttpReplay.Rfc3339.Error.message` words a refusal.
-/

namespace HttpReplay.Rfc3339

/-! ### Writing -/

/-- Two digits. -/
def two (n : Nat) : List Char := Numeral.padded 2 (Numeral.decimal n)

/-- The year: four digits, or a sign and at least four digits where that is too few. -/
def renderYear (year : Int) : List Char :=
  if 0 ≤ year ∧ year ≤ 9999 then Numeral.padded 4 (Numeral.decimal year.toNat)
  else (if year < 0 then '-' else '+') :: Numeral.padded 4 (Numeral.decimal year.natAbs)

/-- The fraction of a second in the fewest of zero, three, six or nine digits. -/
def renderFraction (nanos : Nat) : List Char :=
  if nanos = 0 then []
  else if nanos % 1000000 = 0 then '.' :: Numeral.padded 3 (Numeral.decimal (nanos / 1000000))
  else if nanos % 1000 = 0 then '.' :: Numeral.padded 6 (Numeral.decimal (nanos / 1000))
  else '.' :: Numeral.padded 9 (Numeral.decimal nanos)

/-- **The written form of an instant.** A leap second is the 60th second of its minute. -/
def render (t : Instant) : List Char :=
  let date := t.date
  let clock := t.secondOfDay
  let leap := t.nanos / 1000000000
  renderYear date.year ++ '-' :: two date.month ++ '-' :: two date.day ++
    'T' :: two (clock / 3600) ++ ':' :: two (clock / 60 % 60) ++ ':' :: two (clock % 60 + leap) ++
    renderFraction (t.nanos % 1000000000) ++ ['Z']

/-! ### Refusals -/

/-- Why a text is no instant. -/
inductive Error
  /-- A character that cannot stand at its place. -/
  | invalid
  /-- The text ends before the instant does. -/
  | tooShort
  /-- A number that no date or time has at its place. -/
  | outOfRange
  /-- More text after the instant. -/
  | trailing
  /-- An instant that falls out of the calendar when its offset is applied. -/
  | impossible
  deriving Repr, DecidableEq

/-- The wording of a refusal. -/
def Error.message : Error → String
  | .invalid => "input contains invalid characters"
  | .tooShort => "premature end of input"
  | .outOfRange => "input is out of range"
  | .trailing => "trailing input"
  | .impossible => "no possible date and time matching input"

/-! ### Reading the parts

Each reader takes its part off the front of a text and returns the rest of the text with it. -/

/-- Split off the digits at the front of a text, at most so many. -/
def takeDigits : Nat → List Char → List Char × List Char
  | 0, cs => ([], cs)
  | _ + 1, [] => ([], [])
  | n + 1, c :: cs =>
    if c.isDigit then
      let (digits, rest) := takeDigits n cs
      (c :: digits, rest)
    else ([], c :: cs)

/-- The value of digits. -/
def valueOf (digits : List Char) : Nat := digits.foldl (fun n c => n * 10 + (c.toNat - 48)) 0

/-- A number of one digit or more, at most so many. -/
def number (most : Nat) (cs : List Char) : Except Error (Nat × List Char) :=
  match takeDigits most cs with
  | ([], []) => .error .tooShort
  | ([], _ :: _) => .error .invalid
  | (digits, rest) =>
    if valueOf digits < Numeral.capacity 63 then .ok (valueOf digits, rest) else .error .outOfRange

/-- A number of up to two digits within bounds, after white space. -/
def field (least most : Nat) (cs : List Char) : Except Error (Nat × List Char) := do
  let (n, rest) ← number 2 (Text.trimFront cs)
  if least ≤ n ∧ n ≤ most then return (n, rest) else throw .outOfRange

/-- A separator, after white space. -/
def separator (c : Char) (cs : List Char) : Except Error (List Char) :=
  match Text.trimFront cs with
  | [] => .error .tooShort
  | d :: rest => if d = c then .ok rest else .error .invalid

/-- A year: up to four digits, or a sign and any number of digits. -/
def year (cs : List Char) : Except Error (Int × List Char) := do
  let (y, rest) ←
    match Text.trimFront cs with
    | '-' :: rest => do
      let (n, rest) ← number rest.length rest
      pure (-(n : Int), rest)
    | '+' :: rest => do
      let (n, rest) ← number rest.length rest
      pure ((n : Int), rest)
    | rest => do
      let (n, rest) ← number 4 rest
      pure ((n : Int), rest)
  if -(Numeral.capacity 31 : Int) ≤ y ∧ y < Numeral.capacity 31 then return (y, rest)
  else throw .outOfRange

/-- The fraction of a second in nanoseconds; digits after the ninth are dropped. -/
def fraction : List Char → Except Error (Nat × List Char)
  | '.' :: cs => do
    let (n, rest) ← number 9 cs
    let digits := cs.length - rest.length
    return (n * Nat.pow 10 (9 - digits), rest.dropWhile Char.isDigit)
  | cs => .ok (0, cs)

/-- Two digits, of which the first is at most `tens`; a larger one is out of range. -/
def twoDigits (tens : Char) : List Char → Except Error (Nat × List Char)
  | a :: b :: rest =>
    if a.isDigit ∧ b.isDigit then
      if a ≤ tens then .ok ((a.toNat - 48) * 10 + (b.toNat - 48), rest) else .error .outOfRange
    else .error .invalid
  | cs => if Text.byteLength cs < 2 then .error .tooShort else .error .invalid

/-- The hours and minutes of an offset in seconds. -/
def offsetClock (cs : List Char) : Except Error (Int × List Char) := do
  let (hours, rest) ← twoDigits '9' cs
  let (minutes, rest) ← twoDigits '5' (rest.dropWhile fun c => c == ':' || Text.isSpace c)
  return ((hours * 3600 + minutes * 60 : Nat), rest)

/-- Does the text begin with `UTC` in any case? -/
def startsWithUtc (cs : List Char) : Bool := (cs.take 3).map Text.lower == ['u', 't', 'c']

/-- The offset from UTC in seconds. The minus sign may be a hyphen or U+2212. -/
def offset (cs : List Char) : Except Error (Int × List Char) :=
  if startsWithUtc cs then .ok (0, cs.drop 3)
  else
    match cs with
    | [] => .error .tooShort
    | c :: rest =>
      if c = 'Z' ∨ c = 'z' then .ok (0, rest)
      else if c = '+' then offsetClock rest
      else if c = '-' ∨ c = '−' then do
        let (s, rest) ← offsetClock rest
        return (-s, rest)
      else .error .invalid

/-! ### Putting the parts together -/

/-- A date and a time of day as they are written, with their offset from UTC. -/
structure Local where
  date : Calendar.Date
  hour : Nat
  minute : Nat
  second : Nat
  nanos : Nat
  offset : Int
  deriving Repr

/-- The parts of an instant, in the order in which they are written. -/
def parts (cs : List Char) : Except Error Local := do
  let (y, cs) ← year cs
  let cs ← separator '-' cs
  let (m, cs) ← field 1 12 cs
  let cs ← separator '-' cs
  let (d, cs) ← field 1 31 cs
  let cs ← match cs with
    | [] => throw .tooShort
    | c :: rest => if c = 'T' ∨ c = 't' ∨ c = ' ' then pure rest else throw .invalid
  let (hour, cs) ← field 0 23 cs
  let cs ← separator ':' cs
  let (minute, cs) ← field 0 59 cs
  let cs ← separator ':' cs
  let (second, cs) ← field 0 60 cs
  let (nanos, cs) ← fraction cs
  let (offset, cs) ← offset (Text.trimFront cs)
  if Text.trimFront cs = [] then
    return { date := ⟨y, m, d⟩, hour, minute, second, nanos, offset }
  else throw .trailing

/-- The instant that a date and time of day name. The 60th second is the 59th with a
thousand million nanoseconds more. -/
def instantOf (l : Local) : Except Error Instant :=
  if ¬ (Calendar.inRange l.date.year ∧ l.date.IsValid) then .error .outOfRange
  else if ¬ (-86400 < l.offset ∧ l.offset < 86400) then .error .outOfRange
  else
    let clock := l.hour * 3600 + l.minute * 60 + min l.second 59
    let nanos := l.nanos + (l.second - 59) * 1000000000
    let t : Instant := ⟨Calendar.dayNumber l.date * 86400 + clock - l.offset, nanos⟩
    if Calendar.inRange t.date.year then .ok t else .error .impossible

/-- **Read an instant.** -/
def read (text : String) : Except Error Instant := do
  instantOf (← parts text.toList)

end HttpReplay.Rfc3339
