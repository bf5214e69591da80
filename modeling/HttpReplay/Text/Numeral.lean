/-!
# Numerals

Numbers are written and read in the plainest way: no separators, no leading zeros when
written, and a fixed number of bits as the limit when read.

* `HttpReplay.Numeral.decimal` and `HttpReplay.Numeral.hex` write a number;
* `HttpReplay.Numeral.padded` writes it in at least a given number of places;
* `HttpReplay.Numeral.read?` reads digits of a base, and `HttpReplay.Numeral.readWord?`
  also takes a plus sign and refuses what does not fit in 64 bits.
-/

namespace HttpReplay.Numeral

/-! ### Writing -/

/-- The decimal digits of a number. -/
def decimal (n : Nat) : List Char := Nat.toDigits 10 n

/-- The hexadecimal digits of a number, in lower case. -/
def hex (n : Nat) : List Char := Nat.toDigits 16 n

/-- The digits, with zeros in front up to a width. -/
def padded (width : Nat) (digits : List Char) : List Char :=
  List.replicate (width - digits.length) '0' ++ digits

/-- A whole number with its sign. -/
def signed : Int → List Char
  | .ofNat n => decimal n
  | .negSucc n => '-' :: decimal (n + 1)

/-! ### Reading -/

/-- The value of a digit in bases up to sixteen, in either case. -/
def digit? (c : Char) : Option Nat :=
  if '0' ≤ c ∧ c ≤ '9' then some (c.toNat - 48)
  else if 'a' ≤ c ∧ c ≤ 'f' then some (c.toNat - 87)
  else if 'A' ≤ c ∧ c ≤ 'F' then some (c.toNat - 55)
  else none

/-- The value of a digit of the given base. -/
def digitOf? (base : Nat) (c : Char) : Option Nat := (digit? c).filter (· < base)

/-- Read digits onto a value already read. -/
def readOnto? (base : Nat) : Nat → List Char → Option Nat
  | value, [] => some value
  | value, c :: cs => (digitOf? base c).bind fun d => readOnto? base (value * base + d) cs

/-- Read one or more digits of a base. -/
def read? (base : Nat) (cs : List Char) : Option Nat :=
  if cs = [] then none else readOnto? base 0 cs

/-- Drop one plus sign. -/
def dropPlus : List Char → List Char
  | '+' :: cs => cs
  | cs => cs

/-- How many numbers fit in so many bits. -/
def capacity (bits : Nat) : Nat := Nat.pow 2 bits

/-- The least number that does not fit in a word of 64 bits. -/
def wordLimit : Nat := capacity 64

/-- **Read a word**: an optional plus sign, then one or more digits, of a value that fits
in 64 bits. -/
def readWord? (base : Nat) (cs : List Char) : Option Nat :=
  (read? base (dropPlus cs)).filter (· < wordLimit)

end HttpReplay.Numeral
