/-!
# White space and control characters of Unicode

Three rules of the library speak of character classes beyond ASCII: texts are trimmed of
white space in the sense of the Unicode property `White_Space`, a line that is all white
space ends a stream, and a character that is a control character is never written raw.
-/

namespace HttpReplay.Text

/-- The characters with the Unicode property `White_Space`. -/
def isSpace (c : Char) : Bool :=
  let n := c.toNat
  (9 ≤ n && n ≤ 13) || n == 32 || n == 0x85 || n == 0xA0 || n == 0x1680 ||
    (0x2000 ≤ n && n ≤ 0x200A) || n == 0x2028 || n == 0x2029 || n == 0x202F || n == 0x205F ||
    n == 0x3000

/-- The control characters: U+0000 to U+001F and U+007F to U+009F. -/
def isControl (c : Char) : Bool := c.toNat < 32 || (127 ≤ c.toNat && c.toNat < 160)

/-- A text without the white space in front of it. -/
def trimFront (cs : List Char) : List Char := cs.dropWhile isSpace

/-- A text without the white space behind it. -/
def trimBack (cs : List Char) : List Char := (cs.reverse.dropWhile isSpace).reverse

/-- A text without the white space around it. -/
def trim (cs : List Char) : List Char := trimBack (trimFront cs)

/-- What stands after the last `sep`, or everything where there is none. -/
def afterLast (sep : Char) (cs : List Char) : List Char :=
  (cs.reverse.takeWhile (· != sep)).reverse

/-- The lower-case form of an ASCII capital; every other character is left alone. -/
def lower (c : Char) : Char := if 'A' ≤ c ∧ c ≤ 'Z' then Char.ofNat (c.toNat + 32) else c

/-- How many bytes the characters take in UTF-8. -/
def byteLength (cs : List Char) : Nat := cs.foldr (fun c n => c.utf8Size + n) 0

end HttpReplay.Text
