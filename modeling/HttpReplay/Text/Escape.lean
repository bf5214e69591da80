import HttpReplay.Text.Numeral

/-!
# Escapes

Behind a backslash a letter can stand for a character, or announce its number in hexadecimal
digits: two behind `x`, four behind `u` and eight behind `U`. The settings file and the literals of
the script share this form, each with letters of its own.

* `HttpReplay.Text.escapeDigits?` is the number of digits behind a letter;
* `HttpReplay.Text.numbered` reads the digits;
* `HttpReplay.Text.escape` reads an escape.
-/

namespace HttpReplay.Text

/-- How many digits follow a letter that announces the number of a character. -/
def escapeDigits? (c : Char) : Option Nat :=
  if c = 'x' then some 2 else if c = 'u' then some 4 else if c = 'U' then some 8 else none

/-- A character by its number in so many hexadecimal digits. The halves of surrogate pairs are
no characters. -/
def numbered (digits : Nat) (cs : List Char) : Option (Char × List Char) :=
  if cs.length < digits then none
  else
    (Numeral.read? 16 (cs.take digits)).bind fun n =>
      if n < 0xD800 ∨ 0xE000 ≤ n ∧ n < 0x110000 then some (Char.ofNat n, cs.drop digits) else none

/-- What is behind the digits is no longer than what the digits are at the front of. -/
theorem length_le_of_numbered {digits : Nat} {cs rest : List Char} {c : Char}
    (h : numbered digits cs = some (c, rest)) : rest.length ≤ cs.length := by
  unfold numbered at h
  split at h
  · simp at h
  · simp only [Option.bind_eq_some_iff] at h
    obtain ⟨n, -, h⟩ := h
    split at h
    · simp only [Option.some.injEq, Prod.mk.injEq] at h
      simp [← h.2, List.length_drop]
    · simp at h

/-- **An escape** behind its backslash, where some letters stand for characters and others announce
numbers of so many digits. -/
def escape (letter? : Char → Option Char) (digits? : Char → Option Nat) :
    List Char → Option (Char × List Char)
  | [] => none
  | c :: cs =>
    match letter? c with
    | some d => some (d, cs)
    | none => (digits? c).bind fun digits => numbered digits cs

/-- An escape takes at least the character behind its backslash. -/
theorem length_lt_of_escape {letter? : Char → Option Char} {digits? : Char → Option Nat}
    {cs rest : List Char} {c : Char} (h : escape letter? digits? cs = some (c, rest)) :
    rest.length < cs.length := by
  cases cs with
  | nil => simp [escape] at h
  | cons d ds =>
    simp only [escape] at h
    split at h
    · simp only [Option.some.injEq, Prod.mk.injEq] at h
      simp [← h.2]
    · simp only [Option.bind_eq_some_iff] at h
      obtain ⟨digits, -, hn⟩ := h
      exact Nat.lt_succ_of_le (length_le_of_numbered hn)

end HttpReplay.Text
