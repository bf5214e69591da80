import HttpReplay.Text.Numeral

/-!
# Binary fractions of 64 bits

Where a number stands that should not, a message shows it, and a number with a fraction or
an exponent is shown as the 64-bit binary fraction nearest to it. This file computes with
such fractions exactly: a value is a whole number times a power of two, and every
operation rounds the exact result to the nearest value, a tie to the even one.

A value is written with the fewest digits that read back as it, and among those with the
digits nearest to it.

* `HttpReplay.Binary64.ofRatio?` rounds a fraction, `HttpReplay.Binary64.scale?`
  multiplies by a power of ten;
* `HttpReplay.Binary64.shortest` finds the digits;
* `HttpReplay.Binary64.compact` and `HttpReplay.Binary64.positional` write them.
-/

namespace HttpReplay

/-- The value `mantissa * 2 ^ exponent`. -/
structure Binary64 where
  mantissa : Nat
  exponent : Int
  deriving Repr, DecidableEq

namespace Binary64

/-- Zero. -/
def zero : Binary64 := ⟨0, -1074⟩

/-- The fraction `num / den * 2 ^ -e` as a fraction. -/
def shifted (num den : Nat) (e : Int) : Nat × Nat :=
  if 0 ≤ e then (num, den * Nat.pow 2 e.toNat) else (num * Nat.pow 2 (-e).toNat, den)

/-- Where a fraction goes that stands halfway between two whole numbers. -/
inductive Tie
  /-- To the even one. -/
  | toEven
  /-- To the greater one. -/
  | up
  deriving Repr, DecidableEq

/-- The whole number nearest to a fraction. -/
def nearest (tie : Tie) (num den : Nat) : Nat :=
  let q := num / den
  let r := num % den
  if 2 * r > den ∨ (2 * r = den ∧ (tie = .up ∨ q % 2 = 1)) then q + 1 else q

/-- The exponent at which a positive fraction has 53 binary digits before the point, or the
least exponent there is. -/
def exponentOf (num den : Nat) : Int :=
  let e : Int := (num.log2 : Int) - den.log2 - 52
  let (n, d) := shifted num den e
  max (if n < d * Numeral.capacity 52 then e - 1 else e) (-1074)

/-- The value nearest to a fraction, if it is not too large. -/
def ofRatio? (num den : Nat) : Option Binary64 :=
  if num = 0 then some zero
  else
    let e := exponentOf num den
    let (n, d) := shifted num den e
    let m := nearest .toEven n d
    let (m, e) := if m = Numeral.capacity 53 then (Numeral.capacity 52, e + 1) else (m, e)
    if 971 < e then none else some ⟨m, e⟩

/-- A value as a fraction. -/
def toRatio (x : Binary64) : Nat × Nat := shifted x.mantissa 1 (-x.exponent)

/-- The value nearest to a power of ten that is not too large. -/
def tenTo (n : Nat) : Binary64 := (ofRatio? (Nat.pow 10 n) 1).getD zero

/-- A value times the value nearest to a power of ten, if that is not too large. -/
def times? (x : Binary64) (n : Nat) : Option Binary64 :=
  let (a, b) := x.toRatio
  let (c, d) := (tenTo n).toRatio
  ofRatio? (a * c) (b * d)

/-- A value divided by the value nearest to a power of ten. -/
def dividedBy (x : Binary64) (n : Nat) : Binary64 :=
  let (a, b) := x.toRatio
  let (c, d) := (tenTo n).toRatio
  (ofRatio? (a * d) (b * c)).getD zero

/-- **Multiply by a power of ten**, if the result is not too large. A power beyond the range
of values is divided by in steps of `10 ^ 308`. -/
def scale? (x : Binary64) (e : Int) : Option Binary64 :=
  if x.mantissa = 0 then some zero
  else if 308 < e then none
  else if 0 ≤ e then x.times? e.toNat
  else
    let n := e.natAbs
    if n ≤ 308 then some (x.dividedBy n)
    else if n ≤ 616 then some ((x.dividedBy 308).dividedBy (n - 308))
    else some (((x.dividedBy 308).dividedBy 308).dividedBy 308)

/-! ### The fewest digits -/

/-- Is `10 ^ t` at most a fraction? -/
def reaches (num den : Nat) (t : Int) : Bool :=
  if 0 ≤ t then den * Nat.pow 10 t.toNat ≤ num else den ≤ num * Nat.pow 10 (-t).toNat

/-- The greatest power of ten that a positive fraction reaches. -/
def magnitude (num den : Nat) : Int :=
  let t := ((num.log2 : Int) - den.log2) * 30103 / 100000
  if reaches num den (t + 1) then t + 1
  else if reaches num den t then t
  else if reaches num den (t - 1) then t - 1
  else t - 2

/-- The fraction `digits * 10 ^ t`. -/
def decimalRatio (digits : Nat) (t : Int) : Nat × Nat :=
  if 0 ≤ t then (digits * Nat.pow 10 t.toNat, 1) else (digits, Nat.pow 10 (-t).toNat)

/-- The nearer of the two numbers of so many digits around a value that reads back as it. -/
def digitsOf? (x : Binary64) (tie : Tie) (t : Int) (count : Nat) : Option Nat :=
  let (a, b) := x.toRatio
  let unit := t - count + 1
  let (c, d) := decimalRatio 1 unit
  let low := a * d / (b * c)
  let readsBack (n : Nat) : Bool :=
    let (p, q) := decimalRatio n unit
    ofRatio? p q = some x
  let closest := nearest tie (a * d) (b * c)
  let other := if closest = low then low + 1 else low
  if readsBack closest then some closest
  else if readsBack other then some other
  else none

/-- The first count of digits that is enough, from a count on. -/
def fewest (x : Binary64) (tie : Tie) (t : Int) : Nat → Nat → Nat × Nat
  | 0, count => ((x.digitsOf? tie t count).getD 0, count)
  | more + 1, count =>
    match x.digitsOf? tie t count with
    | some n => (n, count)
    | none => fewest x tie t more (count + 1)

/-- Drop the zeros behind other digits. -/
def dropZeros (digits : List Char) : List Char :=
  match (digits.reverse.dropWhile (· == '0')).reverse with
  | [] => ['0']
  | rest => rest

/-- **The fewest digits** of a positive value, and the power of ten of the first of them. -/
def shortest (x : Binary64) (tie : Tie) : List Char × Int :=
  let (a, b) := x.toRatio
  let t := magnitude a b
  let (n, count) := x.fewest tie t 16 1
  let digits := Numeral.decimal n
  (dropZeros digits, t + (digits.length - count : Int))

/-! ### Writing -/

/-- Digits with the point after the power of ten `t`, and at least one digit on either side
of it. -/
def pointed (digits : List Char) (t : Int) : List Char :=
  if t < 0 then '0' :: '.' :: List.replicate (t.natAbs - 1) '0' ++ digits
  else
    let whole := t.toNat + 1
    if digits.length ≤ whole then
      digits ++ List.replicate (whole - digits.length) '0' ++ ['.', '0']
    else digits.take whole ++ '.' :: digits.drop whole

/-- Digits with the point after the first of them and the power of ten behind an `e`, with a
sign. -/
def powered (digits : List Char) (t : Int) : List Char :=
  digits.take 1 ++ (if digits.length ≤ 1 then [] else '.' :: digits.drop 1) ++
    'e' :: (if t < 0 then '-' else '+') :: Numeral.decimal t.natAbs

/-- The sign of a value and its digits by a rule. -/
def withSign (negative : Bool) (digits : List Char) : List Char :=
  if negative then '-' :: digits else digits

/-- **A value in short**: with a point where its power of ten is between -5 and 15, and
with a power of ten elsewhere. Of two texts that are equally near the even one is written. -/
def compact (negative : Bool) (x : Binary64) : String :=
  String.ofList <| withSign negative <|
    if x.mantissa = 0 then ['0', '.', '0']
    else
      let (digits, t) := x.shortest .toEven
      if -5 ≤ t ∧ t ≤ 15 then pointed digits t else powered digits t

/-- **A value in full**: with a point, wherever it is. Of two texts that are equally near the
greater one is written. -/
def positional (negative : Bool) (x : Binary64) : String :=
  String.ofList <| withSign negative <|
    if x.mantissa = 0 then ['0', '.', '0']
    else
      let (digits, t) := x.shortest .up
      pointed digits t

end Binary64

end HttpReplay
