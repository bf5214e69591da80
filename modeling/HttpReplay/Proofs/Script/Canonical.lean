import HttpReplay.Proofs.Script.Boundaries
import HttpReplay.Script.Literal.Canonical

/-!
# The language's own literals, written by the script

The script writes its literals as the language itself would. Character by character both come to the
same (`HttpReplay.Literal.textChar_eq`, `HttpReplay.Literal.byteChar_eq`), for the same quotes, and
so it is only a question of which characters stand raw. For byte strings these are the same ones,
and their literals are those of the language (`HttpReplay.Literal.bytes_eq_canonical`).

All else about byte strings follows from the way they are written: their literals hold nothing but
characters of ASCII that can be seen, and their own quote only behind a backslash.
`HttpReplay.Literal.bytes_read_back` puts it together.
-/

namespace HttpReplay.Literal

variable {isRaw : Char → Bool} {quote c d : Char} {cs : List Char}

/-! ### Escapes by number -/

namespace Canonical

theorem digits_zero (width : Nat) : digits width 0 = List.replicate width '0' := by
  induction width with
  | zero => rfl
  | succ width ih =>
    rw [digits, Nat.zero_div, ih, List.replicate_succ']
    rfl

theorem exists_of_mem_digits {width n : Nat} (h : d ∈ digits width n) :
    ∃ k < 16, d = Nat.digitChar k := by
  induction width generalizing n with
  | zero => cases h
  | succ width ih =>
    rw [digits, List.mem_append, List.mem_singleton] at h
    rcases h with h | rfl
    · exact ih h
    · exact ⟨n % 16, Nat.mod_lt n (by decide), rfl⟩

/-- So many digits are the number with zeros in front, if it has no more of them. -/
theorem digits_eq_padded {width n : Nat} (hw : 0 < width) (h : n < 16 ^ width) :
    digits width n = Numeral.padded width (Numeral.hex n) := by
  induction width generalizing n with
  | zero => cases hw
  | succ width ih =>
    rw [digits, Numeral.hex, Nat.toDigits_eq_if (by decide)]
    split
    · rename_i hn
      rw [Nat.div_eq_of_lt hn, Nat.mod_eq_of_lt hn, digits_zero]
      rfl
    · rename_i hn
      -- There is a digit in front of the last one, so there is room for it.
      have hwidth : 0 < width := by
        rcases Nat.eq_zero_or_pos width with rfl | hpos
        · exact absurd h hn
        · exact hpos
      have hdiv : n / 16 < 16 ^ width := Nat.div_lt_of_lt_mul (by rwa [← Nat.pow_succ'])
      rw [ih hwidth hdiv, Numeral.padded_concat]
      rfl

theorem escape_eq_numbered (c : Char) : escape c.toNat = numbered c.toNat := by
  have hbound : c.toNat < 16 ^ 8 := by
    rcases c.valid with hv | ⟨-, hv⟩
    · exact Nat.lt_trans hv (by decide)
    · exact Nat.lt_trans hv (by decide)
  rw [escape, numbered]
  by_cases htwo : c.toNat < 0x100
  · rw [if_pos htwo, if_pos (Nat.le_of_lt_succ htwo), digits_eq_padded (by decide) htwo]
  · rw [if_neg htwo, if_neg fun hle => htwo (Nat.lt_succ_of_le hle)]
    by_cases hfour : c.toNat < 0x10000
    · rw [if_pos hfour, if_pos (Nat.le_of_lt_succ hfour), digits_eq_padded (by decide) hfour]
    · rw [if_neg hfour, if_neg fun hle => hfour (Nat.lt_succ_of_le hle),
        digits_eq_padded (by decide) hbound]

/-- An escape by number is a backslash, a letter and digits. -/
theorem exists_escape (n : Nat) :
    ∃ letter ∈ ['x', 'u', 'U'], ∃ width, escape n = '\\' :: letter :: digits width n := by
  rw [escape]
  split_ifs
  · exact ⟨'x', by decide, _, rfl⟩
  · exact ⟨'u', by decide, _, rfl⟩
  · exact ⟨'U', by decide, _, rfl⟩

/-- What holds of the backslash, the letters and the digits holds of an escape by number. -/
theorem forall_mem_escape {p : Char → Prop} (hletters : ∀ e ∈ ['\\', 'x', 'u', 'U'], p e)
    (hdigits : ∀ k < 16, p (Nat.digitChar k)) {n : Nat} (h : d ∈ escape n) : p d := by
  obtain ⟨letter, hletter, width, heq⟩ := exists_escape n
  rw [heq, List.mem_cons, List.mem_cons] at h
  rcases h with rfl | rfl | h
  · exact hletters _ List.mem_cons_self
  · exact hletters _ (List.mem_cons_of_mem _ hletter)
  · obtain ⟨k, hk, rfl⟩ := exists_of_mem_digits h
    exact hdigits k hk

/-! ### Characters -/

theorem quoteFor_eq (cs : List Char) :
    quoteFor (cs.contains single) (cs.contains double) = Canonical.quote cs := by
  simp [quoteFor, Canonical.quote]

theorem isQuote_quote (cs : List Char) :
    Canonical.quote cs = single ∨ Canonical.quote cs = double := by
  rw [← quoteFor_eq]
  exact isQuote_quoteFor _ _

/-- **How the language writes a character**, in the order in which the script asks. -/
theorem char_eq (hq : quote = single ∨ quote = double) (c : Char) :
    char isRaw quote c = (named? c).getD
      (if c = quote then ['\\', c] else if isRaw c then [c] else numbered c.toNat) := by
  have hquote : quote ≠ '\n' ∧ quote ≠ '\r' ∧ quote ≠ '\t' := by
    rcases hq with rfl | rfl <;> decide
  obtain ⟨hn, hr, ht⟩ := hquote
  rw [char, named?, escape_eq_numbered]
  -- No quote is written with a letter, so it does not matter which of the two is asked for first.
  by_cases hb : c = '\\'
  · simp [hb]
  by_cases hc : c = quote
  · subst hc
    simp [hb, hn, hr, ht]
  · rw [if_neg (not_or.mpr ⟨hc, hb⟩), if_neg hb, if_neg hc]
    split_ifs <;> simp_all

/-- **What is written for a character** is the character, if it may stand raw, or else characters of
ASCII that can be seen. -/
theorem mem_char_cases (hq : quote = single ∨ quote = double) (h : d ∈ char isRaw quote c) :
    d = c ∧ isRaw c = true ∨ isAscii d = true := by
  have hbackslash : isAscii '\\' = true := by decide
  have hquote : isAscii quote = true := by rcases hq with rfl | rfl <;> decide
  have hletter : ∀ letter, isAscii letter = true → d ∈ ['\\', letter] → isAscii d = true := by
    intro letter hletter hd
    simp only [List.mem_cons, List.not_mem_nil, or_false] at hd
    rcases hd with rfl | rfl
    · exact hbackslash
    · exact hletter
  rw [char] at h
  split_ifs at h with hfixed ht hn hr hraw
  · rcases hfixed with rfl | rfl
    · exact Or.inr (hletter _ hquote h)
    · exact Or.inr (hletter _ hbackslash h)
  · exact Or.inr (hletter 't' (by decide) h)
  · exact Or.inr (hletter 'n' (by decide) h)
  · exact Or.inr (hletter 'r' (by decide) h)
  · exact Or.inl ⟨List.mem_singleton.mp h, hraw⟩
  · exact Or.inr (forall_mem_escape (p := fun e => isAscii e = true) (by decide) (by decide) h)

/-- **What is written for a value** is those of its characters that may stand raw, and characters of
ASCII that can be seen. -/
theorem mem_chars_cases (h : d ∈ chars isRaw cs) :
    d ∈ cs ∧ isRaw d = true ∨ isAscii d = true := by
  have hq := isQuote_quote cs
  have hquote : isAscii (Canonical.quote cs) = true := by
    rcases hq with hq | hq <;> rw [hq] <;> decide
  rw [chars, List.cons_append, List.mem_cons, List.mem_append, List.mem_singleton] at h
  rcases h with rfl | h | rfl
  · exact Or.inr hquote
  · obtain ⟨c, hc, hd⟩ := List.mem_flatMap.mp h
    rcases mem_char_cases hq hd with ⟨rfl, hraw⟩ | hascii
    · exact Or.inl ⟨hc, hraw⟩
    · exact Or.inr hascii
  · exact Or.inr hquote

end Canonical

/-! ### The script's literals -/

theorem textChar_eq (hq : quote = single ∨ quote = double) (c : Char) :
    textChar quote c = Canonical.char isVisible quote c := by
  rw [Canonical.char_eq hq, textChar]
  cases named? c <;> rfl

/-- **A text is written** as the language writes it, if the characters that are seen stand raw. -/
theorem textChars_eq (cs : List Char) : textChars cs = Canonical.chars isVisible cs := by
  have hchars : textChar (Canonical.quote cs) = Canonical.char isVisible (Canonical.quote cs) :=
    funext (textChar_eq (Canonical.isQuote_quote cs))
  rw [textChars, Canonical.chars, Canonical.quoteFor_eq, hchars]

/-- The character of a byte. -/
def charOf (b : UInt8) : Char := Char.ofNat b.toNat

theorem charOf_injective : Function.Injective charOf := fun a b h => by
  have htoNat := congrArg Char.toNat h
  rw [charOf, charOf, Bytes.toNat_ofNat_of_byte, Bytes.toNat_ofNat_of_byte] at htoNat
  exact UInt8.toNat_inj.mp htoNat

theorem contains_map_charOf (data : Bytes) (b : UInt8) :
    (data.map charOf).contains (charOf b) = data.contains b := by
  rw [Bool.eq_iff_iff, List.contains_iff_mem, List.contains_iff_mem]
  exact List.mem_map_of_injective charOf_injective

theorem isAscii_charOf (b : UInt8) :
    Canonical.isAscii (charOf b) = true ↔ 0x20 ≤ b ∧ b ≤ 0x7E := by
  rw [Canonical.isAscii, charOf, Bytes.toNat_ofNat_of_byte, UInt8.le_iff_toNat_le,
    UInt8.le_iff_toNat_le, Bool.and_eq_true, decide_eq_true_eq, decide_eq_true_eq]
  exact and_congr_right fun _ => Nat.lt_succ_iff

theorem byteChar_eq (hq : quote = single ∨ quote = double) (b : UInt8) :
    byteChar quote b = Canonical.char Canonical.isAscii quote (charOf b) := by
  rw [Canonical.char_eq hq, byteChar]
  simp only [isAscii_charOf]
  rw [charOf, Bytes.toNat_ofNat_of_byte]
  cases named? (Char.ofNat b.toNat) <;> rfl

/-- **A byte string is written** as the language writes it. -/
theorem bytes_eq_canonical (data : Bytes) : bytes data = Canonical.bytes data := by
  have hquote : quoteFor (data.contains 39) (data.contains 34) =
      Canonical.quote (data.map charOf) := by
    rw [← Canonical.quoteFor_eq, ← contains_map_charOf, ← contains_map_charOf]
    rfl
  have hbytes : byteChar (Canonical.quote (data.map charOf)) =
      fun b => Canonical.char Canonical.isAscii (Canonical.quote (data.map charOf)) (charOf b) :=
    funext (byteChar_eq (Canonical.isQuote_quote _))
  rw [bytes, byteChars, hquote, hbytes, Canonical.bytes, Canonical.chars]
  simp only [List.flatMap_map]
  rfl

/-! ### Quotes behind backslashes -/

/-- **A quote is guarded**: wherever it stands, a backslash stands in front of it. -/
def IsGuarded (quote : Char) (cs : List Char) : Prop :=
  ∀ before after, cs = before ++ quote :: after → ∃ front, before = front ++ ['\\']

theorem isGuarded_of_notMem (h : quote ∉ cs) : IsGuarded quote cs := by
  rintro before after rfl
  exact absurd (List.mem_append_right before List.mem_cons_self) h

theorem isGuarded_backslash (hq : quote ≠ '\\') (c : Char) : IsGuarded quote ['\\', c] := by
  intro before after h
  -- The quote is not the first of the two, so the backslash is in front of it.
  rcases before with _ | ⟨first, _ | ⟨second, before⟩⟩
  · rw [List.nil_append, List.cons.injEq] at h
    exact absurd h.1.symm hq
  · rw [List.cons_append, List.cons.injEq] at h
    exact ⟨[], by rw [h.1]; rfl⟩
  · simp at h

theorem IsGuarded.append {ds : List Char} (hc : IsGuarded quote cs) (hd : IsGuarded quote ds) :
    IsGuarded quote (cs ++ ds) := by
  intro before after h
  rcases List.append_eq_append_iff.mp h with ⟨more, rfl, hds⟩ | ⟨more, hcs, hafter⟩
  · obtain ⟨front, rfl⟩ := hd more after hds
    exact ⟨cs ++ front, by rw [List.append_assoc]⟩
  · rcases more with _ | ⟨first, more⟩
    · obtain ⟨front, hfront⟩ := hd [] after (by simpa using hafter.symm)
      simp at hfront
    · rw [List.cons_append, List.cons.injEq] at hafter
      exact hc before more (by rw [hcs, hafter.1])

theorem IsGuarded.flatMap {α : Type} {write : α → List Char} {as : List α}
    (h : ∀ a ∈ as, IsGuarded quote (write a)) : IsGuarded quote (as.flatMap write) := by
  induction as with
  | nil => exact isGuarded_of_notMem List.not_mem_nil
  | cons a as ih =>
    obtain ⟨ha, has⟩ := List.forall_mem_cons.mp h
    exact ha.append (ih has)

/-- No escape by number holds a quote. -/
theorem quote_notMem_escape (hq : quote = single ∨ quote = double) (n : Nat) :
    quote ∉ Canonical.escape n := by
  intro h
  have hne : quote ≠ single ∧ quote ≠ double :=
    Canonical.forall_mem_escape (p := fun e => e ≠ single ∧ e ≠ double) (by decide) (by decide) h
  rcases hq with rfl | rfl
  · exact hne.1 rfl
  · exact hne.2 rfl

theorem isGuarded_char (hq : quote = single ∨ quote = double) (c : Char) :
    IsGuarded quote (Canonical.char isRaw quote c) := by
  have hb := ne_backslash_of_quote hq
  rw [Canonical.char]
  split_ifs with hfixed
  · exact isGuarded_backslash hb c
  · exact isGuarded_backslash hb 't'
  · exact isGuarded_backslash hb 'n'
  · exact isGuarded_backslash hb 'r'
  · refine isGuarded_of_notMem fun h => hfixed (Or.inl ?_)
    exact (List.mem_singleton.mp h).symm
  · exact isGuarded_of_notMem (quote_notMem_escape hq _)

/-- A literal is its quotes and what stands between them, where they are guarded. -/
theorem exists_inner (isRaw : Char → Bool) (cs : List Char) :
    ∃ quote inner, (quote = single ∨ quote = double) ∧
      Canonical.chars isRaw cs = quote :: inner ++ [quote] ∧ IsGuarded quote inner := by
  have hq := Canonical.isQuote_quote cs
  exact ⟨_, _, hq, rfl, IsGuarded.flatMap fun c _ => isGuarded_char hq c⟩

/-! ### Byte strings -/

theorem isAscii_of_mem_bytes {data : Bytes} (h : d ∈ (bytes data).toList) :
    Canonical.isAscii d = true := by
  rw [bytes_eq_canonical, Canonical.bytes, String.toList_ofList, List.mem_cons] at h
  rcases h with rfl | h
  · decide
  · rcases Canonical.mem_chars_cases h with ⟨-, hraw⟩ | hascii
    · exact hraw
    · exact hascii

/-- **Byte strings are read back** before everything, but the empty one not before a third quote.
What is written for a byte string is the language's own literal for it. It holds nothing but
characters of ASCII that can be seen, and its quote only at both ends and behind backslashes. -/
theorem bytes_read_back (data : Bytes) :
    (∀ rest, readBytes ((bytes data).toList ++ rest) = some (data, rest) ↔
      ¬ (data = [] ∧ rest.head? = some single)) ∧
    (∀ c ∈ (bytes data).toList, 0x20 ≤ c.toNat ∧ c.toNat ≤ 0x7E) ∧
    (∃ quote inner, (quote = single ∨ quote = double) ∧
      (bytes data).toList = 'b' :: (quote :: inner ++ [quote]) ∧ IsGuarded quote inner) ∧
    bytes data = Canonical.bytes data := by
  refine ⟨readBytes_bytes_iff data, fun c hc => ?_, ?_, bytes_eq_canonical data⟩
  · have hascii := isAscii_of_mem_bytes hc
    rw [Canonical.isAscii, Bool.and_eq_true, decide_eq_true_eq, decide_eq_true_eq] at hascii
    exact ⟨hascii.1, Nat.le_of_lt_succ hascii.2⟩
  · obtain ⟨quote, inner, hq, hchars, hguarded⟩ :=
      exists_inner Canonical.isAscii (data.map fun b => Char.ofNat b.toNat)
    refine ⟨quote, inner, hq, ?_, hguarded⟩
    rw [bytes_eq_canonical, Canonical.bytes, String.toList_ofList, hchars]

/-- The literal of the empty byte string is not read back before its quote: the three quotes open a
literal over several lines, and nothing closes it. -/
theorem readBytes_empty_before_quote : readBytes ((bytes []).toList ++ [single]) = none := by
  decide +kernel

end HttpReplay.Literal
