import HttpReplay.Proofs.Text.Latin
import HttpReplay.Proofs.Text.Numerals
import HttpReplay.Script.Literal.Reader
import Mathlib.Data.Nat.Digits.Defs

/-!
# Literals read back

A literal of the script is read back as what it stands for, and what follows it is left. The proof
goes character by character: each is written as something that the reader takes for it, whatever
comes next (`HttpReplay.Literal.Reads`), and a literal is its characters between two quotes.

* `HttpReplay.Literal.readText_textChars`, `HttpReplay.Literal.readBytes_byteChars` and
  `HttpReplay.Literal.readDict_dict` read texts, byte strings and dictionaries;
* `HttpReplay.Literal.reads_template` reads the inside of a formatted string;
* `HttpReplay.Literal.isVisible_of_mem_textChars` and its companions say that a literal shows all
  of its characters, so that it stays on its line.
-/

namespace HttpReplay

/-- Characters are finitely many, so what holds of all of them can be decided by going through them.
What holds of those in a list is decided by going through the list. -/
scoped instance (priority := high) decidableForallMem (p : Char → Prop) [DecidablePred p]
    (cs : List Char) : Decidable (∀ c ∈ cs, p c) := List.decidableBAll p cs

end HttpReplay

namespace HttpReplay.Literal

/-! ### Readers -/

/-- **A reader takes characters for some things**, whatever comes next: it goes on behind them, and
puts the things in front of what it finds there. -/
def Reads {α : Type} (read : List Char → Option (List α × List Char)) (cs : List Char)
    (things : List α) : Prop :=
  ∀ rest, read (cs ++ rest) = (read rest).map fun (more, rest) => (things ++ more, rest)

section Readers

variable {α β : Type} {read : List Char → Option (List α × List Char)}

theorem reads_nil : Reads read [] [] := by
  intro rest
  cases h : read rest <;> simp [h]

theorem Reads.append {cs ds : List Char} {as bs : List α} (hc : Reads read cs as)
    (hd : Reads read ds bs) : Reads read (cs ++ ds) (as ++ bs) := by
  intro rest
  rw [List.append_assoc, hc, hd, Option.map_map]
  refine congrArg (Option.map · (read rest)) (funext fun p => ?_)
  simp

/-- What is read piece by piece is read as a whole. -/
theorem Reads.flatMap {write : β → List Char} {value : β → List α} {bs : List β}
    (h : ∀ b ∈ bs, Reads read (write b) (value b)) :
    Reads read (bs.flatMap write) (bs.flatMap value) := by
  induction bs with
  | nil => exact reads_nil
  | cons b bs ih =>
    obtain ⟨hb, hbs⟩ := List.forall_mem_cons.mp h
    rw [List.flatMap_cons, List.flatMap_cons]
    exact hb.append (ih hbs)

end Readers

/-! ### Escapes -/

/-- **Characters that are an escape** for a character: they are all seen, the first one is a
backslash, and what is behind it stands for the character. -/
structure IsEscape (rules : Rules) (cs : List Char) (c : Char) : Prop where
  visible : ∀ d ∈ cs, isVisible d = true
  unescape : ∃ inner, cs = '\\' :: inner ∧ ∀ rest, unescape rules (inner ++ rest) = some (c, rest)

variable {rules : Rules} {quote c : Char}

theorem isEscape_letter {letter : Char} (h : unescapeLetter? letter = some c)
    (hv : isVisible letter = true) : IsEscape rules ['\\', letter] c := by
  refine ⟨?_, [letter], rfl, fun rest => ?_⟩
  · rintro d (_ | ⟨_, _ | ⟨_, ⟨⟩⟩⟩)
    · decide
    · exact hv
  · rw [List.singleton_append, Literal.unescape, Text.escape, h]

theorem isEscape_of_named {cs : List Char} (h : named? c = some cs) : IsEscape rules cs c := by
  rw [named?] at h
  split_ifs at h with hc hc hc hc
  all_goals
    obtain rfl := Option.some.inj h
    subst hc
    exact isEscape_letter (by decide) (by decide)

theorem isEscape_quote (hq : quote = single ∨ quote = double) :
    IsEscape rules ['\\', quote] quote := by
  rcases hq with rfl | rfl <;> exact isEscape_letter (by decide) (by decide)

theorem isVisible_of_mem_toDigits {base n : Nat} {d : Char} (hbase : 1 < base) (hle : base ≤ 16)
    (h : d ∈ Nat.toDigits base n) : isVisible d = true := by
  have hdigit : ∀ k < 16, isVisible (Nat.digitChar k) = true := by decide
  obtain ⟨k, hk, rfl⟩ := Numeral.exists_of_mem_toDigits hbase h
  exact hdigit k (by omega)

theorem isVisible_of_mem_padded {width n : Nat} {d : Char}
    (h : d ∈ Numeral.padded width (Numeral.hex n)) : isVisible d = true := by
  rcases List.mem_append.mp h with h | h
  · rw [List.eq_of_mem_replicate h]
    decide
  · exact isVisible_of_mem_toDigits (by decide) (by decide) h

/-- The number of a character in hexadecimal digits is read back. -/
theorem numbered_padded {width : Nat} (hw : 0 < width) (hc : c.toNat < 16 ^ width)
    (rest : List Char) :
    Text.numbered width (Numeral.padded width (Numeral.hex c.toNat) ++ rest) = some (c, rest) := by
  have hlen : (Numeral.padded width (Numeral.hex c.toNat)).length = width :=
    Numeral.length_padded (Nat.toDigits_length 16 _ _ hw hc)
  have hvalid := c.valid
  rw [Text.numbered, if_neg (by rw [List.length_append, hlen]; omega), List.take_left' hlen,
    List.drop_left' hlen, Numeral.hex, Numeral.read?_padded (by decide) (by decide),
    Option.bind_some, if_pos, Char.ofNat_toNat]
  rcases hvalid with h | ⟨h, h'⟩
  · exact Or.inl h
  · exact Or.inr ⟨h, h'⟩

theorem isEscape_padded {letter : Char} {width : Nat} (hl : unescapeLetter? letter = none)
    (hv : isVisible letter = true) (hd : rules.digits? letter = some width) (hw : 0 < width)
    (hc : c.toNat < 16 ^ width) :
    IsEscape rules ('\\' :: letter :: Numeral.padded width (Numeral.hex c.toNat)) c := by
  refine ⟨?_, _, rfl, fun rest => ?_⟩
  · rintro d (_ | ⟨_, _ | ⟨_, hmem⟩⟩)
    · decide
    · exact hv
    · exact isVisible_of_mem_padded hmem
  · rw [List.cons_append, Literal.unescape, Text.escape, hl, hd]
    exact numbered_padded hw hc rest

/-- The escape by number, where the rules know of it. -/
theorem isEscape_numbered (hx : rules.digits? 'x' = some 2)
    (h : c.toNat ≤ 0xFF ∨ rules.digits? = Text.escapeDigits?) :
    IsEscape rules (numbered c.toNat) c := by
  have hbound : c.toNat < 0x110000 := by
    rcases c.valid with hv | ⟨-, hv⟩
    · exact Nat.lt_trans hv (by decide)
    · exact hv
  rw [numbered]
  split
  · rename_i hle
    exact isEscape_padded (by decide) (by decide) hx (by decide) (Nat.lt_succ_of_le hle)
  · rename_i hgt
    have hdigits := h.resolve_left hgt
    split
    · rename_i hle
      exact isEscape_padded (by decide) (by decide) (hdigits ▸ rfl) (by decide)
        (Nat.lt_succ_of_le hle)
    · exact isEscape_padded (by decide) (by decide) (hdigits ▸ rfl) (by decide)
        (Nat.lt_trans hbound (by decide))

/-! ### Between the quotes -/

/-- **How a character is written** between quotes: as an escape, or raw if it is seen and neither
the quote nor a backslash. -/
def IsWritten (rules : Rules) (quote : Char) (cs : List Char) (c : Char) : Prop :=
  IsEscape rules cs c ∨
    cs = [c] ∧ c ≠ quote ∧ c ≠ '\\' ∧ isVisible c = true ∧ rules.isRaw c = true

theorem ne_backslash_of_quote (hq : quote = single ∨ quote = double) : quote ≠ '\\' := by
  rcases hq with rfl | rfl <;> decide

theorem IsWritten.visible {cs : List Char} (h : IsWritten rules quote cs c) :
    ∀ d ∈ cs, isVisible d = true := by
  rcases h with h | ⟨rfl, -, -, hv, -⟩
  · exact h.visible
  · intro d hd
    rwa [List.mem_singleton.mp hd]

/-- What is written for a character does not begin with the quote. -/
theorem IsWritten.exists_cons {cs : List Char} (h : IsWritten rules quote cs c)
    (hq : quote = single ∨ quote = double) : ∃ first more, cs = first :: more ∧ first ≠ quote := by
  rcases h with h | ⟨rfl, hc, -⟩
  · obtain ⟨inner, rfl, -⟩ := h.unescape
    exact ⟨_, _, rfl, (ne_backslash_of_quote hq).symm⟩
  · exact ⟨c, [], rfl, hc⟩

theorem IsWritten.reads_inside {cs : List Char} (h : IsWritten rules quote cs c)
    (hq : quote = single ∨ quote = double) : Reads (inside rules quote) cs [c] := by
  intro rest
  rcases h with h | ⟨rfl, hc, hb, -, hr⟩
  · obtain ⟨inner, rfl, hinner⟩ := h.unescape
    rw [List.cons_append, inside, if_neg (ne_backslash_of_quote hq).symm, if_pos rfl]
    split
    · rename_i hnone
      rw [hinner] at hnone
      cases hnone
    · rename_i d after hsome
      rw [hinner] at hsome
      cases hsome
      rfl
  · rw [List.singleton_append, inside, if_neg hc, if_neg hb, if_pos hr]
    rfl

theorem inside_quote (rules : Rules) (quote : Char) (rest : List Char) :
    inside rules quote (quote :: rest) = some ([], rest) := by
  rw [inside, if_pos rfl]

section Quoted

variable {α : Type} {write : α → List Char} {value : α → Char} {as : List α}

/-- What stands between the quotes is read up to the closing one. -/
theorem inside_flatMap (hq : quote = single ∨ quote = double)
    (h : ∀ a ∈ as, IsWritten rules quote (write a) (value a)) (rest : List Char) :
    inside rules quote (as.flatMap write ++ quote :: rest) = some (as.map value, rest) := by
  have hread : Reads (inside rules quote) (as.flatMap write) (as.flatMap fun a => [value a]) :=
    Reads.flatMap fun a ha => (h a ha).reads_inside hq
  rw [hread, inside_quote, Option.map_some, List.map_eq_flatMap]
  simp only [List.append_nil]

/-- The opening quote of a literal is found, unless the literal is empty and a third quote
follows. -/
theorem openingQuote?_flatMap (hq : quote = single ∨ quote = double)
    (h : ∀ a ∈ as, IsWritten rules quote (write a) (value a)) {rest : List Char}
    (hrest : as = [] → rest.head? ≠ some quote) :
    openingQuote? (quote :: (as.flatMap write ++ quote :: rest)) =
      some (quote, as.flatMap write ++ quote :: rest) := by
  rw [openingQuote?, if_pos]
  refine ⟨hq, ?_⟩
  -- It is no triple quote: behind the first two quotes of an empty literal stands no third one, and
  -- a literal that is not empty does not begin with its quote.
  cases as with
  | nil =>
    rintro ⟨more, hmore⟩
    rw [List.flatMap_nil, List.nil_append, List.cons_append, List.cons.injEq] at hmore
    exact hrest rfl (by rw [← hmore.2]; rfl)
  | cons a as =>
    obtain ⟨first, inner, hw, hne⟩ := (h a List.mem_cons_self).exists_cons hq
    rintro ⟨more, hmore⟩
    simp only [List.flatMap_cons, hw, List.cons_append, List.cons.injEq] at hmore
    exact hne hmore.1.symm

end Quoted

/-! ### Texts -/

theorem isQuote_quoteFor (holdsSingle holdsDouble : Bool) :
    quoteFor holdsSingle holdsDouble = single ∨ quoteFor holdsSingle holdsDouble = double := by
  rw [quoteFor]
  split
  · exact Or.inr rfl
  · exact Or.inl rfl

/-- A character that is seen may stand raw in a text. -/
theorem isRaw_of_isVisible (h : isVisible c = true) : Rules.ofText.isRaw c = true := by
  -- What may not stand raw are three control characters.
  have hcontrol : 32 ≤ c.toNat := by
    rw [isVisible, Text.isControl] at h
    by_contra hlt
    simp [Nat.not_le.mp hlt] at h
  have hne : ∀ d : Char, d.toNat < 32 → c ≠ d := by
    rintro d hd rfl
    omega
  simp [Rules.ofText, hne '\n' (by decide), hne '\r' (by decide), hne '\x00' (by decide)]

/-- **A character of a text** as it is written. -/
theorem isWritten_textChar (hq : quote = single ∨ quote = double) (c : Char) :
    IsWritten .ofText quote (textChar quote c) c := by
  rw [textChar]
  split
  · rename_i escape hn
    exact Or.inl (isEscape_of_named hn)
  · rename_i hn
    have hb : c ≠ '\\' := by
      rintro rfl
      cases hn
    split
    · rename_i hc
      exact Or.inl (hc ▸ isEscape_quote hq)
    · rename_i hc
      split
      · rename_i hv
        exact Or.inr ⟨rfl, hc, hb, hv, isRaw_of_isVisible hv⟩
      · exact Or.inl (isEscape_numbered rfl (Or.inr rfl))

/-- **A text is read back**, unless it is empty and a third quote follows. -/
theorem readText_textChars {cs rest : List Char} (h : cs = [] → rest.head? ≠ some single) :
    readText (textChars cs ++ rest) = some (cs, rest) := by
  have hq := isQuote_quoteFor (cs.contains single) (cs.contains double)
  have hw : ∀ c ∈ cs, IsWritten .ofText _ (textChar _ c) (id c) :=
    fun c _ => isWritten_textChar hq c
  have hrest : cs = [] →
      rest.head? ≠ some (quoteFor (cs.contains single) (cs.contains double)) := by
    intro hcs
    rw [hcs]
    exact h hcs
  have hquoted : textChars cs ++ rest =
      quoteFor (cs.contains single) (cs.contains double) ::
        (cs.flatMap (textChar (quoteFor (cs.contains single) (cs.contains double))) ++
          quoteFor (cs.contains single) (cs.contains double) :: rest) := by
    simp [textChars]
  rw [hquoted, readText, openingQuote?_flatMap hq hw hrest]
  exact (inside_flatMap hq hw rest).trans (by rw [List.map_id])

/-- A text is read back in front of anything but a quote. -/
theorem readText_before (cs : List Char) {mark : Char} (h : mark ≠ single) (rest : List Char) :
    readText (textChars cs ++ mark :: rest) = some (cs, mark :: rest) :=
  readText_textChars fun _ => by simp [h]

/-- The quotes and what stands between them is seen. -/
theorem isVisible_of_mem_textChars {cs : List Char} {d : Char} (h : d ∈ textChars cs) :
    isVisible d = true := by
  have hq := isQuote_quoteFor (cs.contains single) (cs.contains double)
  have hquote : isVisible (quoteFor (cs.contains single) (cs.contains double)) = true := by
    rcases hq with hq | hq <;> rw [hq] <;> decide
  rw [textChars, List.cons_append, List.mem_cons, List.mem_append, List.mem_singleton] at h
  rcases h with rfl | h | rfl
  · exact hquote
  · obtain ⟨c, -, hd⟩ := List.mem_flatMap.mp h
    exact (isWritten_textChar hq c).visible d hd
  · exact hquote

/-! ### Byte strings -/

/-- The characters of ASCII from the space to the tilde are seen. -/
theorem isVisible_of_printable {b : UInt8} (h : 0x20 ≤ b ∧ b ≤ 0x7E) :
    isVisible (Char.ofNat b.toNat) = true ∧ Rules.ofBytes.isRaw (Char.ofNat b.toNat) = true := by
  have hall : ∀ n < 0x7F, 0x20 ≤ n →
      isVisible (Char.ofNat n) = true ∧ Rules.ofBytes.isRaw (Char.ofNat n) = true := by decide
  exact hall b.toNat (Nat.lt_succ_of_le (UInt8.le_iff_toNat_le.mp h.2))
    (UInt8.le_iff_toNat_le.mp h.1)

/-- **A byte of a byte string** as it is written. -/
theorem isWritten_byteChar (hq : quote = single ∨ quote = double) (b : UInt8) :
    IsWritten .ofBytes quote (byteChar quote b) (Char.ofNat b.toNat) := by
  have hnat := Bytes.toNat_ofNat_of_byte b
  rw [byteChar]
  split
  · rename_i escape hn
    exact Or.inl (isEscape_of_named hn)
  · rename_i hn
    have hb : Char.ofNat b.toNat ≠ '\\' := by
      intro hc
      rw [hc] at hn
      cases hn
    split
    · rename_i hc
      exact Or.inl (hc ▸ isEscape_quote hq)
    · rename_i hc
      split
      · rename_i hr
        obtain ⟨hv, hraw⟩ := isVisible_of_printable hr
        exact Or.inr ⟨rfl, hc, hb, hv, hraw⟩
      · have hle : (Char.ofNat b.toNat).toNat ≤ 0xFF := by
          rw [hnat]
          exact Nat.le_of_lt_succ b.toNat_lt
        have := @isEscape_numbered .ofBytes (Char.ofNat b.toNat) rfl (Or.inl hle)
        rw [hnat] at this
        exact Or.inl this

/-- **A byte string is read back**, unless it is empty and a third quote follows. -/
theorem readBytes_byteChars {data : Bytes} {rest : List Char}
    (h : data = [] → rest.head? ≠ some single) :
    readBytes (byteChars data ++ rest) = some (data, rest) := by
  have hq := isQuote_quoteFor (data.contains 39) (data.contains 34)
  have hw : ∀ b ∈ data, IsWritten .ofBytes _ (byteChar _ b) (Char.ofNat b.toNat) :=
    fun b _ => isWritten_byteChar hq b
  have hrest : data = [] → rest.head? ≠ some (quoteFor (data.contains 39) (data.contains 34)) := by
    intro hdata
    rw [hdata]
    exact h hdata
  have hquoted : byteChars data ++ rest =
      'b' :: quoteFor (data.contains 39) (data.contains 34) ::
        (data.flatMap (byteChar (quoteFor (data.contains 39) (data.contains 34))) ++
          quoteFor (data.contains 39) (data.contains 34) :: rest) := by
    simp [byteChars]
  have hbytes : (data.map fun b => Char.ofNat b.toNat).map (fun c => c.toNat.toUInt8) = data := by
    rw [List.map_map]
    refine (List.map_congr_left fun b _ => ?_).trans data.map_id
    rw [Function.comp_apply, Bytes.toNat_ofNat_of_byte, Nat.toUInt8_eq, UInt8.ofNat_toNat]
    rfl
  rw [hquoted, readBytes]
  simp only [openingQuote?_flatMap hq hw hrest, Option.bind_eq_bind, Option.bind_some,
    inside_flatMap hq hw, hbytes]
  rfl

/-- A byte string is seen from its first character to its last. -/
theorem isVisible_of_mem_byteChars {data : Bytes} {d : Char} (h : d ∈ byteChars data) :
    isVisible d = true := by
  have hq := isQuote_quoteFor (data.contains 39) (data.contains 34)
  have hquote : isVisible (quoteFor (data.contains 39) (data.contains 34)) = true := by
    rcases hq with hq | hq <;> rw [hq] <;> decide
  rw [byteChars, List.cons_append, List.cons_append, List.mem_cons, List.mem_cons, List.mem_append,
    List.mem_singleton] at h
  rcases h with rfl | rfl | h | rfl
  · decide
  · exact hquote
  · obtain ⟨b, -, hd⟩ := List.mem_flatMap.mp h
    exact (isWritten_byteChar hq b).visible d hd
  · exact hquote

/-! ### Formatted strings -/

theorem pieces_quote (quote : Char) (rest : List Char) :
    pieces quote (quote :: rest) = some ([], rest) := by
  rw [pieces, if_pos rfl]

theorem IsEscape.reads_pieces {cs : List Char} (h : IsEscape .ofText cs c)
    (hq : quote = single ∨ quote = double) : Reads (pieces quote) cs [.char c] := by
  intro rest
  obtain ⟨inner, rfl, hinner⟩ := h.unescape
  rw [List.cons_append, pieces, if_neg (ne_backslash_of_quote hq).symm, if_pos rfl]
  split
  · rename_i hnone
    rw [hinner] at hnone
    cases hnone
  · rename_i d after hsome
    rw [hinner] at hsome
    cases hsome
    rfl

/-- A brace that is written twice is a character. -/
theorem reads_pieces_brace (hq : quote = single ∨ quote = double) (hc : c = '{' ∨ c = '}') :
    Reads (pieces quote) [c, c] [.char c] := by
  intro rest
  have hne : c ≠ quote ∧ c ≠ '\\' := by
    rcases hq with rfl | rfl <;> rcases hc with rfl | rfl <;> decide
  rw [List.cons_append, List.singleton_append, pieces, if_neg hne.1, if_neg hne.2, if_pos hc]
  split
  · rename_i hnone
    rw [braced, if_pos rfl] at hnone
    cases hnone
  · rename_i p after hsome
    rw [braced, if_pos rfl] at hsome
    cases hsome
    rfl

/-- The characters that stand for themselves inside a formatted string in double quotes. -/
def IsPlain (c : Char) : Prop :=
  c ≠ double ∧ c ≠ '\\' ∧ c ≠ '{' ∧ c ≠ '}' ∧ Rules.ofText.isRaw c = true

instance (c : Char) : Decidable (IsPlain c) := inferInstanceAs (Decidable (_ ∧ _))

theorem reads_pieces_plain (h : IsPlain c) : Reads (pieces double) [c] [.char c] := by
  intro rest
  obtain ⟨hq, hb, ho, hc, hr⟩ := h
  rw [List.singleton_append, pieces, if_neg hq, if_neg hb, if_neg (by simp [ho, hc]), if_pos hr]
  rfl

theorem reads_plain {cs : List Char} (h : ∀ c ∈ cs, IsPlain c) :
    Reads (pieces double) cs (cs.map .char) := by
  have hall : ∀ c ∈ cs, Reads (pieces double) [c] [.char c] :=
    fun c hc => reads_pieces_plain (h c hc)
  have := Reads.flatMap hall
  rwa [List.flatMap_singleton', ← List.map_eq_flatMap] at this

/-- **A character of a formatted string** as it is written: as an escape, as two braces, or
plain. -/
theorem templateChar_cases (c : Char) :
    IsEscape .ofText (templateChar c) c ∨
      (c = '{' ∨ c = '}') ∧ templateChar c = [c, c] ∨
      IsPlain c ∧ isVisible c = true ∧ templateChar c = [c] := by
  rw [templateChar]
  split
  · rename_i escape hn
    exact Or.inl (isEscape_of_named hn)
  · rename_i hn
    have hb : c ≠ '\\' := by
      rintro rfl
      cases hn
    split
    · rename_i hc
      exact Or.inl (hc ▸ isEscape_quote (Or.inr rfl))
    · rename_i hq
      split
      · rename_i hc
        exact Or.inr (Or.inl ⟨hc, rfl⟩)
      · rename_i hc
        obtain ⟨ho, hc⟩ := not_or.mp hc
        split
        · rename_i hv
          exact Or.inr (Or.inr ⟨⟨hq, hb, ho, hc, isRaw_of_isVisible hv⟩, hv, rfl⟩)
        · exact Or.inl (isEscape_numbered rfl (Or.inr rfl))

/-- **The inside of a formatted string is read back**: it holds no field. -/
theorem reads_template (cs : List Char) :
    Reads (pieces double) (cs.flatMap templateChar) (cs.map .char) := by
  have hall : ∀ c ∈ cs, Reads (pieces double) (templateChar c) [.char c] := by
    intro c _
    rcases templateChar_cases c with h | ⟨hc, h⟩ | ⟨hc, -, h⟩
    · exact h.reads_pieces (Or.inr rfl)
    · exact h ▸ reads_pieces_brace (Or.inr rfl) hc
    · exact h ▸ reads_pieces_plain hc
  have := Reads.flatMap hall
  rwa [← List.map_eq_flatMap] at this

theorem isVisible_of_mem_template {cs : List Char} {d : Char} (h : d ∈ cs.flatMap templateChar) :
    isVisible d = true := by
  obtain ⟨c, -, hd⟩ := List.mem_flatMap.mp h
  rcases templateChar_cases c with h | ⟨hc, h⟩ | ⟨-, hv, h⟩
  · exact h.visible d hd
  · rw [h] at hd
    have : d = c := by simpa using hd
    rw [this]
    rcases hc with rfl | rfl <;> decide
  · rw [h] at hd
    rwa [List.mem_singleton.mp hd]

/-- A name is divided from what stands behind it. -/
theorem split_name {name rest : List Char} (h : ∀ c ∈ name, isNameChar c = true)
    (hc : isNameChar c = false) :
    (name ++ c :: rest).takeWhile isNameChar = name ∧
      (name ++ c :: rest).dropWhile isNameChar = c :: rest := by
  rw [List.takeWhile_append_of_pos h, List.dropWhile_append_of_pos h, List.takeWhile_cons_of_neg,
    List.dropWhile_cons_of_neg, List.append_nil]
  · exact ⟨rfl, rfl⟩
  · simp [hc]
  · simp [hc]

/-- A name in braces is a field. -/
theorem reads_field {name : List Char} (hn : name ≠ []) (h : ∀ c ∈ name, isNameChar c = true) :
    Reads (pieces double) ('{' :: name ++ ['}']) [.field name] := by
  intro rest
  -- The closing brace is no character of a name, so the name ends before it.
  obtain ⟨htake, hdrop⟩ := @split_name '}' name rest h (by decide)
  have hfield : fieldName? (name ++ '}' :: rest) = some (name, rest) := by
    rw [fieldName?, htake, hdrop, if_neg (by simp [hn])]
    rfl
  have hbraced : braced '{' (name ++ '}' :: rest) = some (.field name, rest) := by
    rcases name with _ | ⟨first, name⟩
    · exact absurd rfl hn
    · -- Two braces would be a character.
      have hfirst : first ≠ '{' := by
        rintro rfl
        exact absurd (h '{' List.mem_cons_self) (by decide)
      rw [List.cons_append, braced, if_neg hfirst, if_pos rfl, ← List.cons_append, hfield]
      rfl
  rw [List.cons_append, List.cons_append, List.append_assoc, List.singleton_append, pieces,
    if_neg (by decide), if_neg (by decide), if_pos (Or.inl rfl)]
  split
  · rename_i hnone
    rw [hbraced] at hnone
    cases hnone
  · rename_i p after hsome
    rw [hbraced] at hsome
    cases hsome
    rfl

@[simp] theorem fill_append (names : List Char → List Char) (before after : List Piece) :
    fill names (before ++ after) = fill names before ++ fill names after :=
  List.flatMap_append

@[simp] theorem fill_map_char (names : List Char → List Char) (cs : List Char) :
    fill names (cs.map .char) = cs := by
  rw [fill, List.flatMap_map]
  exact List.flatMap_singleton' cs

/-- **A formatted string is read back** into its pieces. -/
theorem readTemplate_of_reads {cs : List Char} {ps : List Piece} (h : Reads (pieces double) cs ps)
    (hcs : cs.head? ≠ some double) (hne : cs ≠ []) (rest : List Char) :
    readTemplate ('f' :: double :: (cs ++ double :: rest)) = some (ps, rest) := by
  have hopen : openingQuote? (double :: (cs ++ double :: rest)) =
      some (double, cs ++ double :: rest) := by
    rw [openingQuote?, if_pos]
    refine ⟨Or.inr rfl, ?_⟩
    rintro ⟨more, hmore⟩
    rcases cs with _ | ⟨first, cs⟩
    · exact hne rfl
    · simp only [List.cons_append, List.cons.injEq] at hmore
      exact hcs (by rw [hmore.1]; rfl)
  rw [readTemplate, hopen]
  simp only [Option.bind_some]
  rw [h, pieces_quote, Option.map_some]
  simp only [List.append_nil]

/-! ### Elements with commas between them -/

/-- Elements with a comma and a space between them. -/
def separated : List (List Char) → List Char
  | [] => []
  | [cs] => cs
  | cs :: more => cs ++ ',' :: ' ' :: separated more

/-- **An element** as it is written: it begins with neither a space nor the closing mark, and is
read where a comma or the closing mark follows. -/
structure IsElement {α : Type} (close : Char) (element : List Char → Option (α × List Char))
    (cs : List Char) (a : α) : Prop where
  front : ∃ first more, cs = first :: more ∧ first ≠ ' ' ∧ first ≠ close
  reads : ∀ mark rest, mark = ',' ∨ mark = close →
    element (cs ++ mark :: rest) = some (a, mark :: rest)

section Elements

variable {α : Type} {close : Char} {element : List Char → Option (α × List Char)}

theorem skipSpaces_of_ne {first : Char} (h : first ≠ ' ') (cs : List Char) :
    skipSpaces (first :: cs) = first :: cs :=
  List.dropWhile_cons_of_neg (by simp [h])

theorem behind?_self {mark : Char} (h : mark ≠ ' ') (cs : List Char) :
    behind? mark (mark :: cs) = some cs := by
  rw [behind?, skipSpaces_of_ne h]
  exact if_pos rfl

theorem behind?_of_ne {mark first : Char} (hs : first ≠ ' ') (h : first ≠ mark) (cs : List Char) :
    behind? mark (first :: cs) = none := by
  rw [behind?, skipSpaces_of_ne hs]
  exact if_neg h

/-- A space in front of elements makes no difference. -/
theorem elements_space (n : Nat) (cs : List Char) :
    elements close element n (' ' :: cs) = elements close element n cs := by
  cases n with
  | zero => rfl
  | succ n => rfl

/-- **Elements are read back** one by one, up to the closing mark. -/
theorem elements_separated {items : List (List Char × α)} (hs : close ≠ ' ') (hc : close ≠ ',')
    (h : ∀ item ∈ items, IsElement close element item.1 item.2) (rest : List Char) {n : Nat}
    (hn : items.length < n) :
    elements close element n (separated (items.map (·.1)) ++ close :: rest) =
      some (items.map (·.2), rest) := by
  induction items generalizing n with
  | nil =>
    obtain ⟨n, rfl⟩ := Nat.exists_eq_succ_of_ne_zero (Nat.ne_zero_of_lt hn)
    rw [List.map_nil, separated, List.nil_append, elements, behind?_self hs]
    rfl
  | cons item items ih =>
    obtain ⟨n, rfl⟩ := Nat.exists_eq_succ_of_ne_zero (Nat.ne_zero_of_lt hn)
    obtain ⟨hitem, hitems⟩ := List.forall_mem_cons.mp h
    obtain ⟨first, more, hfront, hspace, hclose⟩ := hitem.front
    have hlen : items.length < n := Nat.lt_of_succ_lt_succ hn
    -- Behind the last element stands the closing mark, and behind any other one a comma.
    cases items with
    | nil =>
      have hread := hitem.reads close rest (Or.inr rfl)
      rw [hfront, List.cons_append] at hread
      rw [List.map_singleton, separated, hfront, List.cons_append, elements,
        behind?_of_ne hspace hclose, skipSpaces_of_ne hspace]
      simp only [hread, Option.bind_eq_bind, Option.bind_some, behind?_self hs]
      rfl
    | cons next items =>
      have hread := hitem.reads ','
        (' ' :: (separated ((next :: items).map (·.1)) ++ close :: rest)) (Or.inl rfl)
      rw [hfront, List.cons_append] at hread
      have hall : separated ((item :: next :: items).map (·.1)) ++ close :: rest =
          first :: (more ++
            ',' :: ' ' :: (separated ((next :: items).map (·.1)) ++ close :: rest)) := by
        simp [separated, hfront]
      rw [hall, elements, behind?_of_ne hspace hclose, skipSpaces_of_ne hspace]
      simp only [hread, Option.bind_eq_bind, Option.bind_some, behind?_of_ne (by decide) hc.symm,
        behind?_self (show ',' ≠ ' ' by decide), elements_space, ih hitems hlen]
      rfl

/-- There are no more elements than characters. -/
theorem length_le_length_separated {items : List (List Char × α)}
    (h : ∀ item ∈ items, IsElement close element item.1 item.2) :
    items.length ≤ (separated (items.map (·.1))).length := by
  induction items with
  | nil => exact Nat.le_refl 0
  | cons item items ih =>
    obtain ⟨hitem, hitems⟩ := List.forall_mem_cons.mp h
    obtain ⟨first, more, hfront, -, -⟩ := hitem.front
    have := ih hitems
    cases items with
    | nil => simp [separated, hfront]
    | cons next items =>
      simp only [List.map_cons, separated, List.length_append, List.length_cons] at this ⊢
      omega

end Elements

/-! ### Dictionaries -/

/-- The characters of one entry. -/
def entryOf (pair : String × String) : List Char :=
  textChars pair.1.toList ++ ':' :: ' ' :: textChars pair.2.toList

theorem entryChars_eq (pairs : List (String × String)) :
    entryChars pairs = separated (pairs.map entryOf) := by
  induction pairs with
  | nil => rfl
  | cons pair pairs ih =>
    obtain ⟨k, v⟩ := pair
    cases pairs with
    | nil => rfl
    | cons next pairs =>
      change textChars k.toList ++ ':' :: ' ' :: textChars v.toList ++
        ',' :: ' ' :: entryChars (next :: pairs) = _
      rw [ih]
      rfl

theorem exists_quote_of_textChars (cs : List Char) :
    ∃ quote more, textChars cs = quote :: more ∧ (quote = single ∨ quote = double) :=
  ⟨_, _, rfl, isQuote_quoteFor _ _⟩

/-- **An entry is read back**: neither the colon nor a mark behind it is a third quote. -/
theorem isElement_entryOf (pair : String × String) :
    IsElement '}' entry (entryOf pair) (pair.1.toList, pair.2.toList) where
  front := by
    obtain ⟨quote, more, hquote, hq⟩ := exists_quote_of_textChars pair.1.toList
    refine ⟨quote, _, by rw [entryOf, hquote, List.cons_append], ?_⟩
    rcases hq with rfl | rfl <;> decide
  reads := by
    intro mark rest hmark
    obtain ⟨quote, more, hquote, hq⟩ := exists_quote_of_textChars pair.2.toList
    have hne : mark ≠ single := by rcases hmark with rfl | rfl <;> decide
    have hname := readText_before pair.1.toList (show ':' ≠ single by decide)
      (' ' :: (textChars pair.2.toList ++ mark :: rest))
    have hvalue := readText_before pair.2.toList hne rest
    have hskip : skipSpaces (' ' :: (textChars pair.2.toList ++ mark :: rest)) =
        textChars pair.2.toList ++ mark :: rest := by
      rw [hquote]
      rcases hq with rfl | rfl <;> rfl
    have hall : entryOf pair ++ mark :: rest =
        textChars pair.1.toList ++ ':' :: ' ' :: (textChars pair.2.toList ++ mark :: rest) := by
      simp [entryOf]
    rw [entry, hall, hname]
    simp only [Option.bind_eq_bind, Option.bind_some, behind?_self (show ':' ≠ ' ' by decide),
      hskip, hvalue]
    rfl

/-- **A dictionary is read back** into its entries, in order. -/
theorem readDict_dict (pairs : List (String × String)) (rest : List Char) :
    readDict ((dict pairs).toList ++ rest) =
      some (pairs.map fun pair => (pair.1.toList, pair.2.toList), rest) := by
  let items := pairs.map fun pair => (entryOf pair, (pair.1.toList, pair.2.toList))
  have hitems : ∀ item ∈ items, IsElement '}' entry item.1 item.2 := by
    intro item hitem
    obtain ⟨pair, -, rfl⟩ := List.mem_map.mp hitem
    exact isElement_entryOf pair
  have hchars : entryChars pairs = separated (items.map (·.1)) := by
    rw [entryChars_eq, List.map_map]
    rfl
  have hvalues : items.map (·.2) = pairs.map fun pair => (pair.1.toList, pair.2.toList) := by
    rw [List.map_map]
    rfl
  have hlen := length_le_length_separated hitems
  rw [dict, String.toList_ofList, List.cons_append, List.cons_append, List.append_assoc,
    List.singleton_append, readDict, hchars, elements_separated (by decide) (by decide) hitems,
    hvalues]
  rw [List.length_append]
  omega

theorem isVisible_of_mem_separated {items : List (List Char)}
    (h : ∀ cs ∈ items, ∀ d ∈ cs, isVisible d = true) {d : Char} (hd : d ∈ separated items) :
    isVisible d = true := by
  induction items with
  | nil => cases hd
  | cons cs items ih =>
    obtain ⟨hcs, hitems⟩ := List.forall_mem_cons.mp h
    cases items with
    | nil => exact hcs d hd
    | cons next items =>
      change d ∈ cs ++ ',' :: ' ' :: separated (next :: items) at hd
      rw [List.mem_append, List.mem_cons, List.mem_cons] at hd
      rcases hd with hd | rfl | rfl | hd
      · exact hcs d hd
      · decide
      · decide
      · exact ih hitems hd

theorem isVisible_of_mem_dict {pairs : List (String × String)} {d : Char}
    (h : d ∈ (dict pairs).toList) : isVisible d = true := by
  rw [dict, String.toList_ofList, List.cons_append, List.mem_cons, List.mem_append,
    List.mem_singleton, entryChars_eq] at h
  rcases h with rfl | h | rfl
  · decide
  · refine isVisible_of_mem_separated ?_ h
    intro cs hcs e he
    obtain ⟨pair, -, rfl⟩ := List.mem_map.mp hcs
    rw [entryOf, List.mem_append, List.mem_cons, List.mem_cons] at he
    rcases he with he | rfl | rfl | he
    · exact isVisible_of_mem_textChars he
    · decide
    · decide
    · exact isVisible_of_mem_textChars he
  · decide

end HttpReplay.Literal
