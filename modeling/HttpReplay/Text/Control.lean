/-!
# Commands to a terminal

A text may hold characters that a terminal does not show but takes as commands: single control
characters, and sequences that begin with an escape character. Where a text is shown somewhere
else, they are left out, and with them what belongs to a sequence that is never finished.

Shown are the characters that are no control characters, and the blank ones among those that
are. Blank control characters are shown also inside the shorter sequences. From there on the text
is shown as it stands, and the sequence goes on only at the next character that is not shown.

* `HttpReplay.Text.Control.Mode` is what the next character is part of;
* `HttpReplay.Text.Control.shown` is what is shown of a text.
-/

namespace HttpReplay.Text.Control

/-- **What the next character is part of.** -/
inductive Mode
  /-- No command. -/
  | plain
  /-- A sequence of which only the escape character has been read. -/
  | escape
  /-- A sequence that one more letter, digit or the like ends. -/
  | escapeTail
  /-- A sequence with numbers, which a letter ends. -/
  | numbered
  /-- A sequence for a device: what may come is a number, a sign, or the letter behind them. -/
  | device
  /-- A sequence for a device behind a number. -/
  | deviceNumber
  /-- A sequence for a device behind a sign. -/
  | deviceSign
  /-- The content of a sequence that lasts until it is broken off. -/
  | content
  /-- The content of a sequence that a bell ends. -/
  | title
  deriving Repr, DecidableEq

/-- The control characters that are blank. -/
def isBlankControl (c : Char) : Bool := c == '\t' || c == '\n' || c == '\x0c' || c == '\r'

/-- The control characters of ASCII. -/
def isControl (c : Char) : Bool := c.toNat < 0x20 || c.toNat == 0x7F

/-- Is a character shown that is part of no command? -/
def isShown (c : Char) : Bool := !isControl c || isBlankControl c

/-- Does the written form of a character hold the byte that breaks off a sequence? -/
def breaksOff (c : Char) : Bool := (String.utf8EncodeChar c).contains 0x9C

namespace Mode

/-- What a character of ASCII that is no control character leads to. -/
def nextPlain (m : Mode) (c : Char) : Mode :=
  let isSign := c.toNat < 0x30
  let isNumber := c.toNat < 0x40
  match m with
  | plain => plain
  | escape =>
    if isSign then escapeTail
    else if c = '[' then numbered
    else if c = 'P' then device
    else if c = ']' then title
    else if c = 'X' ∨ c = '^' ∨ c = '_' then content
    else plain
  | escapeTail => if isSign then escapeTail else plain
  | numbered => if isNumber then numbered else plain
  | device => if isSign then deviceSign else if isNumber then deviceNumber else content
  | deviceNumber =>
    if isSign then deviceSign else if c.toNat < 0x3C then deviceNumber else content
  | deviceSign => if isSign then deviceSign else content
  | content => content
  | title => title

/-- **What a character leads to.** -/
def next (m : Mode) (c : Char) : Mode :=
  if c = '\x1b' then escape
  else if c = '\x18' ∨ c = '\x1a' then plain
  else if isControl c then if m = title ∧ c = '\x07' then plain else m
  else if 0x7F < c.toNat then if m = content ∧ breaksOff c then plain else m
  else m.nextPlain c

/-- Is a character shown? -/
def shows (m : Mode) (c : Char) : Bool :=
  match m with
  | plain => isShown c
  | escape | escapeTail | numbered => isBlankControl c
  | device | deviceNumber | deviceSign | content | title => false

end Mode

/-- What is shown of a text from a mode on, where `isOpen` tells that the character before was
shown. A character outside ASCII that is shown ends every sequence. -/
def shownFrom (isOpen : Bool) (m : Mode) : List Char → List Char
  | [] => []
  | c :: cs =>
    if isOpen && isShown c || m.shows c then
      c :: shownFrom true (if 0x7F < c.toNat then .plain else m) cs
    else shownFrom false (m.next c) cs

/-- **What is shown of a text.** -/
def shown (cs : List Char) : List Char := shownFrom false .plain cs

end HttpReplay.Text.Control
