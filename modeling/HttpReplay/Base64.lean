import HttpReplay.Bytes

/-!
# Base64

The content of a chunk travels as base64 with the standard alphabet. Writing is by groups
of three bytes; a last group of one or two bytes is filled up with the pad character.

Reading is strict: only the written form of some bytes is accepted. The pad character may
stand in the last group alone, that group must be filled up to four characters, and the
bits that the pad characters leave unused must be zero. Every other text is refused, and
`HttpReplay.Base64.Error` says for what reason and where.

* `HttpReplay.Base64.encode` writes, `HttpReplay.Base64.decode` reads;
* `HttpReplay.Base64.Error.message` words a refusal.
-/

namespace HttpReplay.Base64

/-- Why a text is no base64. Offsets count the bytes of the text from zero. -/
inductive Error
  /-- A byte that cannot stand at its place. -/
  | symbol (byte : UInt8) (offset : Nat)
  /-- A last group of a single character, after which the text has this many. -/
  | length (count : Nat)
  /-- A last character with bits set that no byte would use. -/
  | lastSymbol (byte : UInt8) (offset : Nat)
  /-- A last group that is not filled up. -/
  | padding
  deriving Repr, DecidableEq

/-- The wording of a refusal. -/
def Error.message : Error → String
  | .symbol b i => s!"Invalid symbol {b.toNat}, offset {i}."
  | .length n => s!"Invalid input length: {n}"
  | .lastSymbol b i => s!"Invalid last symbol {b.toNat}, offset {i}."
  | .padding => "Invalid padding"

/-! ### The alphabet -/

/-- The pad character. -/
abbrev pad : UInt8 := 61

/-- The character for six bits: `A` to `Z`, `a` to `z`, `0` to `9`, `+` and `/`. -/
def symbol (n : Nat) : Char :=
  if n < 26 then Char.ofNat (n + 65)
  else if n < 52 then Char.ofNat (n + 71)
  else if n < 62 then Char.ofNat (n - 4)
  else if n = 62 then '+'
  else '/'

/-- The six bits a byte of the text stands for, if it is in the alphabet. -/
def value? (b : UInt8) : Option Nat :=
  if 65 ≤ b ∧ b ≤ 90 then some (b.toNat - 65)
  else if 97 ≤ b ∧ b ≤ 122 then some (b.toNat - 71)
  else if 48 ≤ b ∧ b ≤ 57 then some (b.toNat + 4)
  else if b = 43 then some 62
  else if b = 47 then some 63
  else none

/-! ### Writing -/

/-- The written form of some bytes. -/
def encode : Bytes → List Char
  | [] => []
  | [a] => [symbol (a.toNat / 4), symbol (a.toNat % 4 * 16), '=', '=']
  | [a, b] =>
    [symbol (a.toNat / 4), symbol (a.toNat % 4 * 16 + b.toNat / 16), symbol (b.toNat % 16 * 4), '=']
  | a :: b :: c :: rest =>
    symbol (a.toNat / 4) :: symbol (a.toNat % 4 * 16 + b.toNat / 16) ::
      symbol (b.toNat % 16 * 4 + c.toNat / 64) :: symbol (c.toNat % 64) :: encode rest

/-! ### Reading -/

/-- The six bits of the byte at an offset. -/
def valueAt (offset : Nat) (b : UInt8) : Except Error Nat :=
  match value? b with
  | some v => .ok v
  | none => .error (.symbol b offset)

/-- The three bytes that four times six bits make. -/
def threeBytes (p q r s : Nat) : Bytes :=
  [(p * 4 + q / 16).toUInt8, (q % 16 * 16 + r / 4).toUInt8, (r % 4 * 64 + s).toUInt8]

/-- A group of four characters before the last group. -/
def decodeGroup (offset : Nat) (a b c d : UInt8) : Except Error Bytes := do
  let p ← valueAt offset a
  let q ← valueAt (offset + 1) b
  let r ← valueAt (offset + 2) c
  let s ← valueAt (offset + 3) d
  return threeBytes p q r s

/-- The bytes of a last group, from the values of its characters, the last of them, and
the number of pad characters that follow. -/
def closeGroup (offset : Nat) (values : List Nat) (last : UInt8) (pads : Nat) :
    Except Error Bytes :=
  match values with
  | [] | [_] => .error (.length (offset + values.length))
  | [p, q] =>
    if pads ≠ 2 then .error .padding
    else if q % 16 ≠ 0 then .error (.lastSymbol last (offset + 1))
    else .ok ((threeBytes p q 0 0).take 1)
  | [p, q, r] =>
    if pads ≠ 1 then .error .padding
    else if r % 4 ≠ 0 then .error (.lastSymbol last (offset + 2))
    else .ok ((threeBytes p q r 0).take 2)
  | p :: q :: r :: s :: _ => .ok (threeBytes p q r s)

/-- The last group: characters of the alphabet, then nothing but pad characters, of which
the first may not stand before the third place. -/
def decodeLast (offset : Nat) (values : List Nat) (last : UInt8) : Bytes → Except Error Bytes
  | [] => closeGroup offset values last 0
  | b :: rest =>
    if b = pad then
      if 2 ≤ values.length ∧ rest.all (· == pad) then
        closeGroup offset values last (rest.length + 1)
      else .error (.symbol b (offset + values.length))
    else
      match value? b with
      | some v => decodeLast offset (values ++ [v]) b rest
      | none => .error (.symbol b (offset + values.length))

/-- Read groups from an offset on; the last one has one to four characters. -/
def decodeFrom (offset : Nat) : Bytes → Except Error Bytes
  | a :: b :: c :: d :: e :: rest => do
    let three ← decodeGroup offset a b c d
    let more ← decodeFrom (offset + 4) (e :: rest)
    return three ++ more
  | group => decodeLast offset [] 0 group

/-- A byte outside the alphabet that stands alone behind full groups, such as a stray line
end, is reported before anything else. -/
def strayLast? (text : Bytes) : Option UInt8 :=
  if text.length % 4 = 1 then
    text.getLast?.filter fun b => b ≠ pad && (value? b).isNone
  else none

/-- **Read base64**: the bytes that `HttpReplay.Base64.encode` writes as this text. -/
def decode (text : Bytes) : Except Error Bytes :=
  match text, strayLast? text with
  | [], _ => .ok []
  | _, some b => .error (.symbol b (text.length - 1))
  | _, none => decodeFrom 0 text

end HttpReplay.Base64
