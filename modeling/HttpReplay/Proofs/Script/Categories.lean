import HttpReplay.Proofs.Script.Canonical

/-!
# Which characters stand raw

The script lets a character stand raw if it is seen, and the language if it is printable. All
printable characters are seen, and the control characters, the separators and the format characters
of four ranges are neither. That leaves the characters that are seen only because no rule names
them (`HttpReplay.Literal.IsMissed`): the other format characters, among them those that turn the
direction of the text, and the characters that are private or unassigned. They stand raw in the
script's literals, and the language would escape them.

So the literal of a text is the language's own exactly if the text holds no such character
(`HttpReplay.Literal.text_eq_canonical_iff`). What the categories are is given, with only what
holds of them in every version of Unicode from 6.3 on.
-/

namespace HttpReplay.Literal

variable {category : Char → Category} {isRaw : Char → Bool} {quote c : Char} {cs : List Char}

/-! ### Missed characters -/

/-- **A character is missed**: by its category it is not printable, and no rule of the script names
it. -/
def IsMissed (category : Char → Category) (c : Char) : Prop :=
  category c ∈ [.format, .surrogate, .privateUse, .unassigned] ∧ isInvisible c = false

instance (category : Char → Category) (c : Char) : Decidable (IsMissed category c) :=
  inferInstanceAs (Decidable (_ ∧ _))

/-- What is missed is neither graphic nor a control character nor a separator. -/
theorem IsMissed.ne (hm : IsMissed category c) :
    category c ≠ .graphic ∧ category c ≠ .control ∧ (category c).isSeparator = false := by
  have hall : ∀ k ∈ [Category.format, .surrogate, .privateUse, .unassigned],
      k ≠ .graphic ∧ k ≠ .control ∧ k.isSeparator = false := by decide
  exact hall _ hm.1

namespace IsUnicode

variable (h : IsUnicode category)

include h

/-- What is seen, but for the space, by the categories. -/
theorem isVisible_eq (hc : c ≠ ' ') :
    isVisible c = (category c != .control && !(category c).isSeparator && !isInvisible c) := by
  have hcontrol : (category c == .control) = Text.isControl c := by
    rw [Bool.eq_iff_iff, beq_iff_eq]
    exact h.control_iff c
  have hseparator : (category c).isSeparator = (Text.isSpace c && !Text.isControl c) := by
    rw [Bool.eq_iff_iff, h.separator_iff, Bool.and_eq_true, Bool.not_eq_true']
  rw [isVisible, bne, hcontrol, hseparator, beq_false_of_ne hc]
  cases Text.isControl c <;> cases Text.isSpace c <;> rfl

/-- **What is seen** is printable or missed. -/
theorem isVisible_iff (c : Char) :
    isVisible c = true ↔ isPrintable category c = true ∨ IsMissed category c := by
  by_cases hc : c = ' '
  · subst hc
    exact iff_of_true (by decide) (Or.inl rfl)
  · have hinvisible := h.format_of_isInvisible c
    rw [h.isVisible_eq hc, isPrintable, beq_false_of_ne hc, Bool.false_or, IsMissed]
    -- The four ranges hold format characters, so no other character is turned down for them.
    cases hk : category c <;> simp_all [Category.isSeparator]

theorem ne_space_of_isMissed (hm : IsMissed category c) : c ≠ ' ' := by
  rintro rfl
  have hspace := (h.separator_iff ' ').mpr (by decide)
  rw [hm.ne.2.2] at hspace
  cases hspace

/-- What is missed is not printable. -/
theorem isPrintable_of_isMissed (hm : IsMissed category c) : isPrintable category c = false := by
  rw [isPrintable, beq_false_of_ne (h.ne_space_of_isMissed hm), beq_false_of_ne hm.ne.1]
  rfl

/-- What is missed is not ASCII. -/
theorem le_of_isMissed (hm : IsMissed category c) : 0x7F ≤ c.toNat := by
  obtain ⟨hgraphic, hcontrol, -⟩ := hm.ne
  by_contra hlt
  rcases Nat.lt_trichotomy c.toNat 0x20 with hlow | hspace | hhigh
  · exact hcontrol ((h.control_iff c).mpr (by simp [Text.isControl, hlow]))
  · exact h.ne_space_of_isMissed hm (Char.toNat_inj.mp hspace)
  · exact hgraphic (h.graphic_of_ascii c hhigh (Nat.lt_of_not_le hlt))

end IsUnicode

/-! ### Outside ASCII -/

/-- Outside ASCII a character stands raw or is escaped by number. -/
theorem Canonical.char_of_le (hq : quote = single ∨ quote = double) (hle : 0x7F ≤ c.toNat) :
    Canonical.char isRaw quote c = if isRaw c then [c] else Canonical.escape c.toNat := by
  have hne : ∀ d : Char, d.toNat < 0x7F → c ≠ d := by
    rintro d hd rfl
    exact absurd hd (Nat.not_lt.mpr hle)
  have hquote : quote.toNat < 0x7F := by rcases hq with rfl | rfl <;> decide
  rw [Canonical.char, if_neg (not_or.mpr ⟨hne _ hquote, hne '\\' (by decide)⟩),
    if_neg (hne '\t' (by decide)), if_neg (hne '\n' (by decide)), if_neg (hne '\r' (by decide))]

/-- **The characters outside ASCII** that a literal holds are those of the value that stand raw. -/
theorem Canonical.mem_chars_iff (hle : 0x7F ≤ c.toNat) :
    c ∈ Canonical.chars isRaw cs ↔ c ∈ cs ∧ isRaw c = true := by
  constructor
  · intro hc
    refine (Canonical.mem_chars_cases hc).resolve_right fun hascii => ?_
    rw [Canonical.isAscii, Bool.and_eq_true, decide_eq_true_eq, decide_eq_true_eq] at hascii
    exact absurd hascii.2 (Nat.not_lt.mpr hle)
  · rintro ⟨hc, hraw⟩
    have hwritten : c ∈ Canonical.char isRaw (Canonical.quote cs) c := by
      rw [Canonical.char_of_le (Canonical.isQuote_quote cs) hle, if_pos hraw]
      exact List.mem_singleton_self c
    rw [Canonical.chars, List.cons_append]
    exact List.mem_cons_of_mem _ (List.mem_append_left _ (List.mem_flatMap.mpr ⟨c, hc, hwritten⟩))

/-! ### Agreement -/

section Agreement

variable (h : IsUnicode category)

include h

theorem char_eq_of_not_isMissed (hm : ¬ IsMissed category c) :
    Canonical.char isVisible quote c = Canonical.char (isPrintable category) quote c := by
  have hraw : isVisible c = isPrintable category c := by
    rw [Bool.eq_iff_iff, h.isVisible_iff, or_iff_left hm]
  rw [Canonical.char, Canonical.char, hraw]

/-- A missed character is written in two ways, one with the character and one with a backslash in
front. -/
theorem char_of_isMissed (hq : quote = single ∨ quote = double) (hm : IsMissed category c) :
    Canonical.char isVisible quote c = [c] ∧ c ≠ '\\' ∧
      ∃ more, Canonical.char (isPrintable category) quote c = '\\' :: more := by
  have hle := h.le_of_isMissed hm
  have hvisible := (h.isVisible_iff c).mpr (Or.inr hm)
  have hprintable := h.isPrintable_of_isMissed hm
  obtain ⟨letter, -, width, hescape⟩ := Canonical.exists_escape c.toNat
  refine ⟨?_, ?_, ?_⟩
  · rw [Canonical.char_of_le hq hle, if_pos hvisible]
  · rintro rfl
    exact absurd hle (by decide)
  · rw [Canonical.char_of_le hq hle, hprintable, if_neg Bool.false_ne_true]
    exact ⟨_, hescape⟩

/-- **The first missed character tells**: where two writings are the same, none is missed. -/
theorem flatMap_char_eq_iff (hq : quote = single ∨ quote = double) (cs : List Char) :
    cs.flatMap (Canonical.char isVisible quote) =
        cs.flatMap (Canonical.char (isPrintable category) quote) ↔
      ∀ c ∈ cs, ¬ IsMissed category c := by
  induction cs with
  | nil => simp
  | cons c cs ih =>
    rw [List.flatMap_cons, List.flatMap_cons, List.forall_mem_cons, ← ih]
    by_cases hm : IsMissed category c
    · obtain ⟨hraw, hne, more, hescape⟩ := char_of_isMissed h hq hm
      rw [hraw, hescape]
      refine iff_of_false (fun heq => ?_) fun hboth => hboth.1 hm
      rw [List.cons_append, List.cons_append, List.cons.injEq] at heq
      exact hne heq.1
    · rw [char_eq_of_not_isMissed h hm, List.append_cancel_left_eq]
      exact (and_iff_right hm).symm

theorem chars_eq_iff (cs : List Char) :
    Canonical.chars isVisible cs = Canonical.chars (isPrintable category) cs ↔
      ∀ c ∈ cs, ¬ IsMissed category c := by
  rw [Canonical.chars, Canonical.chars, List.cons_append, List.cons_append, List.cons.injEq,
    List.append_cancel_right_eq, flatMap_char_eq_iff h (Canonical.isQuote_quote cs)]
  exact and_iff_right rfl

end Agreement

/-- **The literal of a text and the language's own.** They have the same quotes, and they are the
same exactly if no character of the text is missed. Of the characters outside ASCII the language's
own literal holds those that are printable, and the script's holds the missed ones as well. -/
theorem text_eq_canonical_iff (h : IsUnicode category) (value : String) :
    (text value).toList.head? = (Canonical.text category value).toList.head? ∧
    (text value = Canonical.text category value ↔ ∀ c ∈ value.toList, ¬ IsMissed category c) ∧
    ∀ c : Char, 0x7F ≤ c.toNat →
      (c ∈ (Canonical.text category value).toList ↔
        c ∈ value.toList ∧ isPrintable category c = true) ∧
      (c ∈ (text value).toList ↔
        c ∈ value.toList ∧ (isPrintable category c = true ∨ IsMissed category c)) := by
  have htext : (text value).toList = Canonical.chars isVisible value.toList := by
    rw [text, String.toList_ofList, textChars_eq]
  have hcanonical : (Canonical.text category value).toList =
      Canonical.chars (isPrintable category) value.toList := by
    rw [Canonical.text, String.toList_ofList]
  rw [← String.toList_inj, htext, hcanonical]
  refine ⟨rfl, chars_eq_iff h value.toList, fun c hle => ⟨Canonical.mem_chars_iff hle, ?_⟩⟩
  rw [Canonical.mem_chars_iff hle, h.isVisible_iff]

/-! ### The categories as they are -/

/-- The ranges of format characters, with both ends. -/
def formatRanges : List (Nat × Nat) :=
  [(0xAD, 0xAD), (0x600, 0x605), (0x61C, 0x61C), (0x6DD, 0x6DD), (0x70F, 0x70F), (0x890, 0x891),
   (0x8E2, 0x8E2), (0x180E, 0x180E), (0x200B, 0x200F), (0x202A, 0x202E), (0x2060, 0x2064),
   (0x2066, 0x206F), (0xFEFF, 0xFEFF), (0xFFF9, 0xFFFB), (0x110BD, 0x110BD), (0x110CD, 0x110CD),
   (0x13430, 0x1343F), (0x1BCA0, 0x1BCA3), (0x1D173, 0x1D17A), (0xE0001, 0xE0001),
   (0xE0020, 0xE007F)]

/-- The category of a character in Unicode 15, but that numbers without a character are not told
from those with one. -/
def categoryOf (c : Char) : Category :=
  let n := c.toNat
  if n < 0x20 ∨ 0x7F ≤ n ∧ n ≤ 0x9F then .control
  else if n = 0x2028 then .lineSeparator
  else if n = 0x2029 then .paragraphSeparator
  else if n = 0x20 ∨ n = 0xA0 ∨ n = 0x1680 ∨ 0x2000 ≤ n ∧ n ≤ 0x200A ∨ n = 0x202F ∨ n = 0x205F ∨
      n = 0x3000 then .spaceSeparator
  else if formatRanges.any fun (first, last) => first ≤ n && n ≤ last then .format
  else if 0xE000 ≤ n ∧ n ≤ 0xF8FF ∨ 0xF0000 ≤ n ∧ n ≤ 0xFFFFD ∨
      0x100000 ≤ n ∧ n ≤ 0x10FFFD then .privateUse
  else .graphic

theorem isUnicode_categoryOf : IsUnicode categoryOf where
  control_iff := by
    intro c
    simp only [categoryOf, Text.isControl]
    split_ifs <;> simp <;> omega
  separator_iff := by
    intro c
    simp only [categoryOf, Text.isControl, Text.isSpace]
    split_ifs <;> simp [Category.isSeparator] <;> omega
  graphic_of_ascii := by
    intro c hlow hhigh
    have hranges : ∀ range ∈ formatRanges, 0x7F ≤ range.1 := by decide
    have hformat : ¬ formatRanges.any (fun (first, last) => first ≤ c.toNat && c.toNat ≤ last) := by
      simp only [List.any_eq_true, Bool.and_eq_true, decide_eq_true_eq, not_exists, not_and]
      intro range hrange hle
      have := hranges range hrange
      omega
    simp only [categoryOf]
    rw [if_neg (by omega), if_neg (by omega), if_neg (by omega), if_neg (by omega),
      if_neg hformat, if_neg (by omega)]
  format_of_isInvisible := by
    intro c hc
    simp only [isInvisible, Bool.or_eq_true, Bool.and_eq_true, beq_iff_eq, decide_eq_true_eq] at hc
    have hany : ∀ range ∈ formatRanges, range.1 ≤ c.toNat → c.toNat ≤ range.2 →
        formatRanges.any fun (first, last) => first ≤ c.toNat && c.toNat ≤ last := by
      intro range hrange hlow hhigh
      exact List.any_eq_true.mpr ⟨range, hrange, by simp [hlow, hhigh]⟩
    have hformat : formatRanges.any fun (first, last) => first ≤ c.toNat && c.toNat ≤ last := by
      rcases hc with ((hc | hc) | hc) | hc
      · exact hany (0xAD, 0xAD) (by decide) (by omega) (by omega)
      · exact hany (0x200B, 0x200F) (by decide) hc.1 hc.2
      · exact hany (0x2060, 0x2064) (by decide) hc.1 hc.2
      · exact hany (0xFEFF, 0xFEFF) (by decide) (by omega) (by omega)
    simp only [categoryOf]
    rw [if_neg (by omega), if_neg (by omega), if_neg (by omega), if_neg (by omega), if_pos hformat]

/-- Quotes, a zero-width space and a line separator make no difference, and a character that turns
the direction of the text makes one. -/
theorem text_eq_canonical_marked :
    IsUnicode categoryOf ∧
      text "it's\u200b\u2028" = Canonical.text categoryOf "it's\u200b\u2028" ∧
      text "it's\u2066" ≠ Canonical.text categoryOf "it's\u2066" :=
  ⟨isUnicode_categoryOf, (text_eq_canonical_iff isUnicode_categoryOf _).2.1.mpr (by decide),
    fun h => absurd ((text_eq_canonical_iff isUnicode_categoryOf _).2.1.mp h) (by decide)⟩

/-- The character that turns the direction of the text to the left stands raw in its literal, and
the language escapes it. -/
theorem text_of_override :
    text "\u202e" = "'\u202e'" ∧ Canonical.text categoryOf "\u202e" = "'\\u202e'" := by
  decide +kernel

end HttpReplay.Literal
