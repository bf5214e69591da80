/-!
# Bytes

Captured traffic is a list of bytes, and everything the library reads off the wire is
read from the front of such a list. This file holds what the readers share: the few
bytes with a name, the classes of bytes that the ASCII rules speak of, and the two ways
a run of bytes is turned into text.

* `HttpReplay.Bytes.latin1` takes every byte for the character of the same number, so
  it never fails and loses nothing.
* `HttpReplay.Bytes.text?` takes the bytes for UTF-8 and fails where they are not.
* `HttpReplay.Bytes.ofText` is the UTF-8 form of a text.
-/

namespace HttpReplay

/-- A run of captured bytes. -/
abbrev Bytes := List UInt8

/-! ### Named bytes -/

namespace Byte

/-- Horizontal tab. -/
abbrev tab : UInt8 := 9
/-- Line feed, which ends a line. -/
abbrev lf : UInt8 := 10
/-- Carriage return, which may stand before a line feed. -/
abbrev cr : UInt8 := 13
/-- Space. -/
abbrev sp : UInt8 := 32
/-- Colon, which ends the name of a header field. -/
abbrev colon : UInt8 := 58
/-- Semicolon, which ends the size of a chunk. -/
abbrev semicolon : UInt8 := 59
/-- Delete, the one control character above the printable range. -/
abbrev del : UInt8 := 127

/-- The lower-case form of an ASCII capital; every other byte is left alone. -/
def lower (b : UInt8) : UInt8 := if 65 ≤ b ∧ b ≤ 90 then b + 32 else b

/-- Tab or space: what may surround a header value. -/
def isBlank (b : UInt8) : Bool := b == sp || b == tab

/-- The white space of ASCII: tab, line feed, form feed, carriage return and space. -/
def isSpace (b : UInt8) : Bool := b == sp || b == tab || b == lf || b == 12 || b == cr

/-- A decimal digit. -/
def isDigit (b : UInt8) : Bool := 48 ≤ b && b ≤ 57

/-- A letter of ASCII. -/
def isLetter (b : UInt8) : Bool := (65 ≤ b && b ≤ 90) || (97 ≤ b && b ≤ 122)

end Byte

namespace Bytes

/-! ### Text -/

/-- The bytes of an ASCII text. -/
def ascii (text : String) : Bytes := text.toList.map fun c => c.toNat.toUInt8

/-- **One character per byte**: the byte `b` stands for the character number `b`. -/
def latin1 (bytes : Bytes) : String := String.ofList (bytes.map fun b => Char.ofNat b.toNat)

/-- The text that the bytes are the UTF-8 form of, if there is one. -/
def text? (bytes : Bytes) : Option String := String.fromUTF8? ⟨bytes.toArray⟩

/-- The UTF-8 form of a text. -/
def ofText (text : String) : Bytes := text.toByteArray.data.toList

/-! ### Comparing and trimming -/

/-- Two runs of bytes that differ at most in the case of ASCII letters. -/
def eqIgnoringCase (a b : Bytes) : Bool := a.map Byte.lower == b.map Byte.lower

/-- Drop the bytes of a class from the back. -/
def dropBack (p : UInt8 → Bool) (bytes : Bytes) : Bytes := (bytes.reverse.dropWhile p).reverse

/-- Drop the bytes of a class from both ends. -/
def trimBy (p : UInt8 → Bool) (bytes : Bytes) : Bytes := dropBack p (bytes.dropWhile p)

/-! ### Lines -/

/-- The bytes before the first line feed and those after it. -/
def splitLine? : Bytes → Option (Bytes × Bytes)
  | [] => none
  | b :: rest =>
    if b = Byte.lf then some ([], rest)
    else (splitLine? rest).map fun (line, after) => (b :: line, after)

/-- The bytes before the first carriage return and line feed and those after them. -/
def splitCrlf? : Bytes → Option (Bytes × Bytes)
  | [] => none
  | b :: rest =>
    if b = Byte.cr ∧ rest.head? = some Byte.lf then some ([], rest.tail)
    else (splitCrlf? rest).map fun (line, after) => (b :: line, after)

theorem eq_append_of_splitLine? {bytes line rest : Bytes}
    (h : splitLine? bytes = some (line, rest)) :
    bytes = line ++ Byte.lf :: rest := by
  induction bytes generalizing line with
  | nil => simp [splitLine?] at h
  | cons b r ih =>
    by_cases hb : b = Byte.lf
    · simp_all [splitLine?]
    · simp only [splitLine?, if_neg hb, Option.map_eq_some_iff] at h
      obtain ⟨⟨l, a⟩, h1, h2⟩ := h
      simp only [Prod.mk.injEq] at h2
      obtain ⟨rfl, rfl⟩ := h2
      rw [ih h1, List.cons_append]

theorem eq_append_of_splitCrlf? {bytes line rest : Bytes}
    (h : splitCrlf? bytes = some (line, rest)) :
    bytes = line ++ Byte.cr :: Byte.lf :: rest := by
  induction bytes generalizing line with
  | nil => simp [splitCrlf?] at h
  | cons b r ih =>
    by_cases hb : b = Byte.cr ∧ r.head? = some Byte.lf
    · simp only [splitCrlf?, if_pos hb, Option.some.injEq, Prod.mk.injEq] at h
      obtain ⟨rfl, rfl⟩ := h
      obtain ⟨rfl, h2⟩ := hb
      cases r with
      | nil => simp at h2
      | cons c r => simp_all
    · simp only [splitCrlf?, if_neg hb, Option.map_eq_some_iff] at h
      obtain ⟨⟨l, a⟩, h1, h2⟩ := h
      simp only [Prod.mk.injEq] at h2
      obtain ⟨rfl, rfl⟩ := h2
      rw [ih h1, List.cons_append]

end Bytes

end HttpReplay
