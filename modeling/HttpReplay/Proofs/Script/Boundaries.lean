import HttpReplay.Proofs.Script.Scripts

/-!
# Where literals end

A literal is read off the front of a text, and the question is whether what follows it can change
what is read. It cannot, with one exception. A literal that is empty is two quotes, and where a
third one follows, the three open a literal over several lines. So the empty text and the empty byte
string are read back before everything but their own quote, and all other literals are read back
before everything (`HttpReplay.Literal.readText_text_iff`,
`HttpReplay.Literal.readBytes_bytes_iff`). A dictionary ends with a brace, and inside it every text
stands before a mark, so it is read back whatever its texts are and whatever follows.

Nor does a literal reach into another line: what it holds is written in characters that are seen
(`HttpReplay.Literal.StaysOnLine`). For dictionaries and texts both are put together in
`HttpReplay.Literal.dict_and_text_read_back`.
-/

namespace HttpReplay

/-! ### One line -/

namespace Script

theorem linesFrom_end {line : List Char} (h : IsLine line) {current : List Char}
    (hne : current.reverse ++ line ≠ []) : linesFrom current line = [current.reverse ++ line] := by
  induction line generalizing current with
  | nil =>
    rw [List.append_nil] at hne ⊢
    rw [linesFrom, if_neg (by simpa using hne)]
  | cons c line ih =>
    obtain ⟨⟨hn, hr⟩, hline⟩ := List.forall_mem_cons.mp h
    rw [linesFrom, if_neg (by simp [hn, hr]), ih hline (by simp), List.reverse_cons,
      List.append_assoc, List.singleton_append]
    -- A line feed behind it would only matter to a carriage return.
    intro _ hreturn
    exact absurd hreturn hr

/-- A line that is not empty is the only line of itself. -/
theorem lines_of_isLine {line : List Char} (h : IsLine line) (hne : line ≠ []) :
    lines line = [line] :=
  linesFrom_end h hne

end Script

namespace Literal

open Script

/-- **What stays on its line**: it holds no control character, no separator of lines or paragraphs
and no white space but the space, and it is a single line of a script. -/
structure StaysOnLine (cs : List Char) : Prop where
  control : ∀ c ∈ cs, Text.isControl c = false
  separator : '\u2028' ∉ cs ∧ '\u2029' ∉ cs
  space : ∀ c ∈ cs, Text.isSpace c = true → c = ' '
  lines : lines cs = [cs]

theorem not_isControl_of_isVisible {c : Char} (h : isVisible c = true) :
    Text.isControl c = false := by
  simp only [isVisible, Bool.and_eq_true, Bool.not_eq_true'] at h
  exact h.1.1

theorem eq_space_of_isVisible {c : Char} (h : isVisible c = true) (hs : Text.isSpace c = true) :
    c = ' ' := by
  simp only [isVisible, hs, Bool.and_eq_true, Bool.not_true, Bool.false_or, beq_iff_eq] at h
  exact h.1.2

/-- What is written in characters that are seen stays on its line. -/
theorem staysOnLine_of_isVisible {cs : List Char} (h : ∀ c ∈ cs, isVisible c = true)
    (hne : cs ≠ []) : StaysOnLine cs where
  control := fun c hc => not_isControl_of_isVisible (h c hc)
  separator := by
    have hhidden : isVisible '\u2028' = false ∧ isVisible '\u2029' = false := by decide
    exact ⟨fun hc => by simp [h _ hc] at hhidden, fun hc => by simp [h _ hc] at hhidden⟩
  space := fun c hc => eq_space_of_isVisible (h c hc)
  lines := lines_of_isLine (isLine_of_isVisible h) hne

/-! ### A third quote -/

/-- Three quotes open no literal that ends on its line. -/
theorem openingQuote?_three (quote : Char) (cs : List Char) :
    openingQuote? (quote :: quote :: quote :: cs) = none := by
  rw [openingQuote?, if_neg]
  rintro ⟨-, hnot⟩
  exact hnot ⟨cs, rfl⟩

/-- **A text is read back before everything**, but the empty one not before a third quote. -/
theorem readText_text_iff (value : String) (rest : List Char) :
    readText ((text value).toList ++ rest) = some (value.toList, rest) ↔
      ¬ (value = "" ∧ rest.head? = some single) := by
  constructor
  · rintro h ⟨rfl, hrest⟩
    obtain ⟨more, rfl⟩ := List.head?_eq_some_iff.mp hrest
    have hempty : (text "").toList = [single, single] := by decide
    rw [hempty, List.cons_append, List.singleton_append, readText, openingQuote?_three] at h
    cases h
  · intro h
    rw [text, String.toList_ofList]
    exact readText_textChars fun hnil hrest => h ⟨String.toList_eq_nil_iff.mp hnil, hrest⟩

/-- **A byte string is read back before everything**, but the empty one not before a third quote. -/
theorem readBytes_bytes_iff (data : Bytes) (rest : List Char) :
    readBytes ((bytes data).toList ++ rest) = some (data, rest) ↔
      ¬ (data = [] ∧ rest.head? = some single) := by
  constructor
  · rintro h ⟨rfl, hrest⟩
    obtain ⟨more, rfl⟩ := List.head?_eq_some_iff.mp hrest
    have hempty : (bytes []).toList = ['b', single, single] := by decide
    rw [hempty, List.cons_append, List.cons_append, List.singleton_append, readBytes,
      openingQuote?_three] at h
    cases h
  · intro h
    rw [bytes, String.toList_ofList]
    exact readBytes_byteChars fun hnil hrest => h ⟨hnil, hrest⟩

/-! ### Dictionaries and texts -/

theorem text_ne_nil (value : String) : (text value).toList ≠ [] := by
  rw [text, String.toList_ofList]
  exact List.cons_ne_nil _ _

theorem dict_ne_nil (pairs : List (String × String)) : (dict pairs).toList ≠ [] := by
  rw [dict, String.toList_ofList]
  exact List.cons_ne_nil _ _

/-- **Dictionaries and texts are read back.** A dictionary is read back as its pairs, in order and
with the names that come up again, whatever follows it. A text is read back whatever follows it,
unless it is empty and a third quote follows. All of them stay on their line. -/
theorem dict_and_text_read_back :
    (∀ (pairs : List (String × String)) (rest : List Char),
      readDict ((dict pairs).toList ++ rest) =
        some (pairs.map fun pair => (pair.1.toList, pair.2.toList), rest)) ∧
    (∀ (value : String) (rest : List Char),
      readText ((text value).toList ++ rest) = some (value.toList, rest) ↔
        ¬ (value = "" ∧ rest.head? = some single)) ∧
    (∀ pairs, StaysOnLine (dict pairs).toList) ∧ ∀ value, StaysOnLine (text value).toList := by
  refine ⟨readDict_dict, readText_text_iff, fun pairs => ?_, fun value => ?_⟩
  · exact staysOnLine_of_isVisible (fun _ hd => isVisible_of_mem_dict hd) (dict_ne_nil pairs)
  · refine staysOnLine_of_isVisible (fun _ hd => ?_) (text_ne_nil value)
    rw [text, String.toList_ofList] at hd
    exact isVisible_of_mem_textChars hd

/-- The literal of the empty text is not read back before its quote: the three quotes open a literal
over several lines, and nothing closes it. -/
theorem readText_empty_before_quote : readText ((text "").toList ++ [single]) = none := by
  decide +kernel

end Literal

end HttpReplay
