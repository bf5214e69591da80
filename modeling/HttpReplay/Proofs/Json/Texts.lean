import HttpReplay.Json.Text
import HttpReplay.Proofs.Text.Numerals
import Mathlib.Data.Nat.Digits.Defs

/-!
# JSON texts are read back

Every text is read back from its written form, whatever its characters are: a character that is
escaped by a letter or by its number is read as itself, and every other one stands for itself.
What is written holds no line end, so a text never leaves its line.

* `HttpReplay.Json.textTail_flatMap` – **a text is read back**, with what follows it kept;
* `HttpReplay.Json.newline_notMem_renderText` – it stays on one line.
-/

namespace HttpReplay.Json

variable {c letter : Char} {cs rest : List Char}

/-! ### Escapes -/

/-- A letter behind a backslash is read as the character that it was written for. -/
theorem unescapeLetter?_of_escapeLetter? (h : escapeLetter? c = some letter) :
    unescapeLetter? letter = some c := by
  unfold escapeLetter? at h
  split_ifs at h with hself hb hf hn hr ht
  · obtain rfl := Option.some.inj h
    exact if_pos (hself.imp_right .inl)
  · obtain rfl := Option.some.inj h
    exact hb ▸ rfl
  · obtain rfl := Option.some.inj h
    exact hf ▸ rfl
  · obtain rfl := Option.some.inj h
    exact hn ▸ rfl
  · obtain rfl := Option.some.inj h
    exact hr ▸ rfl
  · obtain rfl := Option.some.inj h
    exact ht ▸ rfl

/-- A character that no letter stands for is neither a quote nor a backslash. -/
theorem ne_of_escapeLetter? (h : escapeLetter? c = none) : c ≠ '\x22' ∧ c ≠ '\\' := by
  unfold escapeLetter? at h
  split_ifs at h with hself
  exact not_or.mp hself

theorem length_le_byteLength (cs : List Char) : cs.length ≤ Text.byteLength cs := by
  induction cs with
  | nil => exact Nat.le_refl 0
  | cons c cs ih =>
    have hpos := c.utf8Size_pos
    show cs.length + 1 ≤ c.utf8Size + Text.byteLength cs
    omega

/-- **The number of a control character is read back.** -/
theorem fourDigits_padded {n : Nat} (h : n < 16 ^ 4) (rest : List Char) :
    fourDigits (Numeral.padded 4 (Numeral.hex n) ++ rest) = .ok (n, rest) := by
  have hlen : (Numeral.padded 4 (Numeral.hex n)).length = 4 :=
    Numeral.length_padded (Nat.toDigits_length 16 n 4 (by decide) h)
  have hlong := length_le_byteLength (Numeral.padded 4 (Numeral.hex n) ++ rest)
  rw [List.length_append, hlen] at hlong
  rw [fourDigits, if_neg (by omega), List.take_left' hlen, List.drop_left' hlen, Numeral.hex,
    Numeral.read?_padded (by decide) (by decide)]

theorem escape_control (h : c.toNat < 32) (rest : List Char) :
    escape ('u' :: (Numeral.padded 4 (Numeral.hex c.toNat) ++ rest)) = .ok (c, rest) := by
  have hletter : unescapeLetter? 'u' = none := by decide
  have htrailing : isTrailing c.toNat = false := by simp [isTrailing]; omega
  have hleading : isLeading c.toNat = false := by simp [isLeading]; omega
  have hread := fourDigits_padded (Nat.lt_trans h (by decide)) rest
  simp only [escape, hletter, if_true, numberedChar, hread, bind, Except.bind, htrailing, hleading,
    Bool.false_eq_true, if_false, Char.ofNat_toNat]
  rfl

/-! ### Texts -/

theorem textTail_quote (rest : List Char) : textTail ('\x22' :: rest) = .ok ([], rest) := by
  rw [textTail, if_pos rfl]

/-- An escape is read, and then the rest of the text. -/
theorem textTail_of_escape (h : escape cs = .ok (c, rest)) :
    textTail ('\\' :: cs) = (textTail rest).map fun (ds, after) => (c :: ds, after) := by
  rw [textTail, if_neg (by decide), if_pos rfl]
  split
  · rename_i heq
    rw [h] at heq
    cases heq
  · rename_i heq
    rw [h] at heq
    cases heq
    cases textTail rest <;> rfl

/-- A character that stands for itself is read, and then the rest of the text. -/
theorem textTail_of_raw (hquote : c ≠ '\x22') (hslash : c ≠ '\\') (hcontrol : ¬ c.toNat < 32) :
    textTail (c :: rest) = (textTail rest).map fun (ds, after) => (c :: ds, after) := by
  rw [textTail, if_neg hquote, if_neg hslash, if_neg hcontrol]
  cases textTail rest <;> rfl

theorem textTail_escapeChar (c : Char) (rest : List Char) :
    textTail (escapeChar c ++ rest) = (textTail rest).map fun (ds, after) => (c :: ds, after) := by
  unfold escapeChar
  cases hletter : escapeLetter? c with
  | some letter =>
    have hescape : escape (letter :: rest) = .ok (c, rest) := by
      simp only [escape, unescapeLetter?_of_escapeLetter? hletter]
    exact textTail_of_escape hescape
  | none =>
    obtain ⟨hquote, hslash⟩ := ne_of_escapeLetter? hletter
    by_cases hcontrol : c.toNat < 32
    · simp only [if_pos hcontrol]
      exact textTail_of_escape (escape_control hcontrol rest)
    · simp only [if_neg hcontrol]
      exact textTail_of_raw hquote hslash hcontrol

/-- **A text is read back.** -/
theorem textTail_flatMap (cs rest : List Char) :
    textTail (cs.flatMap escapeChar ++ '\x22' :: rest) = .ok (cs, rest) := by
  induction cs with
  | nil => exact textTail_quote rest
  | cons c cs ih =>
    rw [List.flatMap_cons, List.append_assoc, textTail_escapeChar, ih]
    rfl

/-! ### Line ends -/

theorem escapeLetter?_ne_newline (h : escapeLetter? c = some letter) : letter ≠ '\n' := by
  rintro rfl
  have hnone : unescapeLetter? '\n' = none := by decide
  rw [unescapeLetter?_of_escapeLetter? h] at hnone
  cases hnone

theorem newline_notMem_padded (width n : Nat) :
    '\n' ∉ Numeral.padded width (Numeral.hex n) := by
  intro h
  rcases List.mem_append.mp h with h | h
  · exact absurd (List.eq_of_mem_replicate h) (by decide)
  · obtain ⟨d, hd, heq⟩ := Numeral.exists_of_mem_toDigits (by decide) h
    exact (by decide : ∀ d < 16, '\n' ≠ Nat.digitChar d) d hd heq

/-- **A text stays on one line.** -/
theorem newline_notMem_renderText (cs : List Char) : '\n' ∉ renderText cs := by
  have hchar : ∀ c : Char, '\n' ∉ escapeChar c := by
    intro c hmem
    unfold escapeChar at hmem
    cases hletter : escapeLetter? c with
    | some letter =>
      simp only [hletter, List.mem_cons, List.not_mem_nil, or_false] at hmem
      rcases hmem with h | h
      · exact absurd h (by decide)
      · exact escapeLetter?_ne_newline hletter h.symm
    | none =>
      simp only [hletter] at hmem
      split at hmem
      · simp only [List.mem_cons] at hmem
        rcases hmem with h | h | h
        · exact absurd h (by decide)
        · exact absurd h (by decide)
        · exact newline_notMem_padded 4 _ h
      · rename_i hcontrol
        obtain rfl := List.mem_singleton.mp hmem
        exact hcontrol (by decide)
  unfold renderText
  simp only [List.mem_cons, List.mem_append, List.mem_flatMap, List.not_mem_nil, or_false, not_or,
    not_exists, not_and]
  exact ⟨⟨by decide, fun c _ => hchar c⟩, by decide⟩

end HttpReplay.Json
