import HttpReplay.Json.Fault

/-!
# Texts in JSON

A text is written in double quotes. The quote, the backslash and the control characters
below U+0020 are escaped, by a letter where there is one and by four hexadecimal digits
elsewhere; every other character is written raw.

Read are all escapes of JSON, and a character beyond U+FFFF may be written as two escapes,
which are then the two halves of a surrogate pair. Halves that stand alone are refused.

* `HttpReplay.Json.renderText` writes a text;
* `HttpReplay.Json.textTail` reads one behind its opening quote, and
  `HttpReplay.Json.skipText` only looks for its end.
-/

namespace HttpReplay.Json

/-! ### Writing -/

/-- The letter that stands for a character behind a backslash. -/
def escapeLetter? (c : Char) : Option Char :=
  if c = '\x22' ∨ c = '\\' then some c
  else if c = '\x08' then some 'b'
  else if c = '\x0c' then some 'f'
  else if c = '\n' then some 'n'
  else if c = '\r' then some 'r'
  else if c = '\t' then some 't'
  else none

/-- One character of a text. -/
def escapeChar (c : Char) : List Char :=
  match escapeLetter? c with
  | some letter => ['\\', letter]
  | none =>
    if c.toNat < 32 then '\\' :: 'u' :: Numeral.padded 4 (Numeral.hex c.toNat) else [c]

/-- **A text** in double quotes. -/
def renderText (cs : List Char) : List Char := '\x22' :: cs.flatMap escapeChar ++ ['\x22']

/-! ### Reading escapes -/

/-- The character that a letter behind a backslash stands for. -/
def unescapeLetter? (c : Char) : Option Char :=
  if c = '\x22' ∨ c = '\\' ∨ c = '/' then some c
  else if c = 'b' then some '\x08'
  else if c = 'f' then some '\x0c'
  else if c = 'n' then some '\n'
  else if c = 'r' then some '\r'
  else if c = 't' then some '\t'
  else none

/-- Four hexadecimal digits. -/
def fourDigits (cs : List Char) : Except Fault (Nat × List Char) :=
  if Text.byteLength cs < 4 then .error ⟨.endInText, 0⟩
  else
    match Numeral.read? 16 (cs.take 4) with
    | some n => .ok (n, cs.drop 4)
    | none => .error ⟨.badEscape, Text.byteLength cs - 4⟩

/-- The first half of a surrogate pair. -/
def isLeading (n : Nat) : Bool := 0xD800 ≤ n && n ≤ 0xDBFF

/-- The second half of a surrogate pair. -/
def isTrailing (n : Nat) : Bool := 0xDC00 ≤ n && n ≤ 0xDFFF

/-- The second half of a surrogate pair, which must be an escape of its own. -/
def trailingHalf (cs : List Char) : Except Fault (Nat × List Char) :=
  match cs with
  | [] => here .endInText []
  | c :: rest =>
    if c ≠ '\\' then past .cutSurrogatePair cs
    else
      match rest with
      | [] => here .endInText []
      | d :: digits =>
        if d ≠ 'u' then past .cutSurrogatePair rest
        else do
          let (n, rest) ← fourDigits digits
          if isTrailing n then return (n, rest) else here .loneSurrogate rest

/-- A character by number, behind the letter that announces it. -/
def numberedChar (cs : List Char) : Except Fault (Char × List Char) := do
  let (n, rest) ← fourDigits cs
  if isTrailing n then here .loneSurrogate rest
  else if isLeading n then
    let (m, rest) ← trailingHalf rest
    return (Char.ofNat ((n - 0xD800) * 0x400 + (m - 0xDC00) + 0x10000), rest)
  else return (Char.ofNat n, rest)

/-- An escape behind its backslash. -/
def escape (cs : List Char) : Except Fault (Char × List Char) :=
  match cs with
  | [] => here .endInText []
  | c :: rest =>
    match unescapeLetter? c with
    | some d => .ok (d, rest)
    | none => if c = 'u' then numberedChar rest else past .badEscape cs

theorem length_le_of_fourDigits {cs rest : List Char} {n : Nat}
    (h : fourDigits cs = .ok (n, rest)) : rest.length ≤ cs.length := by
  unfold fourDigits at h
  split at h
  · simp at h
  · split at h
    · simp only [Except.ok.injEq, Prod.mk.injEq] at h
      rw [← h.2, List.length_drop]
      omega
    · simp at h

theorem length_le_of_trailingHalf {cs rest : List Char} {n : Nat}
    (h : trailingHalf cs = .ok (n, rest)) : rest.length ≤ cs.length := by
  unfold trailingHalf at h
  split at h
  · simp [here] at h
  · split at h
    · simp [past] at h
    · split at h
      · simp [here] at h
      · split at h
        · simp [past] at h
        · rename_i digits _
          cases hd : fourDigits digits with
          | error e => simp [hd, bind, Except.bind] at h
          | ok r =>
            obtain ⟨m, after⟩ := r
            have hle := length_le_of_fourDigits hd
            simp only [hd, bind, Except.bind] at h
            split at h
            · simp only [pure, Except.pure, Except.ok.injEq, Prod.mk.injEq] at h
              rw [← h.2]
              simp only [List.length_cons]
              omega
            · simp [here] at h

theorem length_le_of_numberedChar {cs rest : List Char} {c : Char}
    (h : numberedChar cs = .ok (c, rest)) : rest.length ≤ cs.length := by
  unfold numberedChar at h
  cases hd : fourDigits cs with
  | error e => simp [hd, bind, Except.bind] at h
  | ok r =>
    obtain ⟨n, after⟩ := r
    have hle := length_le_of_fourDigits hd
    simp only [hd, bind, Except.bind] at h
    split at h
    · simp [here] at h
    · split at h
      · cases ht : trailingHalf after with
        | error e => simp [ht] at h
        | ok r =>
          obtain ⟨m, last⟩ := r
          have hle' := length_le_of_trailingHalf ht
          simp only [ht, pure, Except.pure, Except.ok.injEq, Prod.mk.injEq] at h
          rw [← h.2]
          omega
      · simp only [pure, Except.pure, Except.ok.injEq, Prod.mk.injEq] at h
        rw [← h.2]
        omega

/-- An escape takes at least the character behind its backslash. -/
theorem length_lt_of_escape {cs rest : List Char} {c : Char} (h : escape cs = .ok (c, rest)) :
    rest.length < cs.length := by
  unfold escape at h
  split at h
  · simp [here] at h
  · split at h
    · simp only [Except.ok.injEq, Prod.mk.injEq] at h
      simp [← h.2]
    · split at h
      · have := length_le_of_numberedChar h
        simp only [List.length_cons]
        omega
      · simp [past] at h

/-! ### Reading texts -/

/-- **The characters of a text** behind its opening quote, up to and with the closing one. -/
def textTail (cs : List Char) : Except Fault (List Char × List Char) :=
  match cs with
  | [] => here .endInText []
  | c :: rest =>
    if c = '\x22' then .ok ([], rest)
    else if c = '\\' then
      match _h : escape rest with
      | .error e => .error e
      | .ok (d, rest) => do
        let (ds, rest) ← textTail rest
        return (d :: ds, rest)
    else if c.toNat < 32 then past .controlCharacter cs
    else do
      let (ds, rest) ← textTail rest
      return (c :: ds, rest)
termination_by cs.length
decreasing_by
  · have := length_lt_of_escape _h
    simp only [List.length_cons]
    omega
  · simp

/-! ### Texts that are not needed -/

/-- Drop an escape behind its backslash. Halves of surrogate pairs are not looked at. -/
def skipEscape (cs : List Char) : Except Fault (List Char) :=
  match cs with
  | [] => here .endInText []
  | c :: rest =>
    if (unescapeLetter? c).isSome then .ok rest
    else if c = 'u' then (fourDigits rest).map (·.2)
    else past .badEscape cs

theorem length_lt_of_skipEscape {cs rest : List Char} (h : skipEscape cs = .ok rest) :
    rest.length < cs.length := by
  unfold skipEscape at h
  split at h
  · simp [here] at h
  · split at h
    · simp only [Except.ok.injEq] at h
      simp [← h]
    · split at h
      · rename_i after _ _
        cases hd : fourDigits after with
        | error e => simp [hd, Except.map] at h
        | ok r =>
          obtain ⟨n, last⟩ := r
          have hle := length_le_of_fourDigits hd
          simp only [hd, Except.map, Except.ok.injEq] at h
          rw [← h]
          simp only [List.length_cons]
          omega
      · simp [past] at h

/-- Drop a text behind its opening quote. -/
def skipText (cs : List Char) : Except Fault (List Char) :=
  match cs with
  | [] => here .endInText []
  | c :: rest =>
    if c = '\x22' then .ok rest
    else if c = '\\' then
      match _h : skipEscape rest with
      | .error e => .error e
      | .ok rest => skipText rest
    else if c.toNat < 32 then here .controlCharacter cs
    else skipText rest
termination_by cs.length
decreasing_by
  · have := length_lt_of_skipEscape _h
    simp only [List.length_cons]
    omega
  · simp

end HttpReplay.Json
