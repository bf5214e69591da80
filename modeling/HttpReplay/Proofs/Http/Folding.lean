import HttpReplay.Http.Folding
import HttpReplay.Proofs.Http.FirstLines

/-!
# Reading folded heads

A folded head is read like the head it was made from. The strict rules refuse it where the first
fold ends a line, since the next one begins with a blank and so has no name. The lenient rules then
read the head from its beginning, line by line, and join the parts of a value with single spaces,
which is where they were broken.

* `HttpReplay.Http.FoldsLines.eq_or_refused` is what the strict rules make of folded lines;
* `HttpReplay.Http.Lenient.fieldLines_of_folds` is what the lenient ones do. A value is read part by
  part, each trimmed by itself, which is trimming the whole (`HttpReplay.Bytes.trimBy_split`);
* `HttpReplay.Http.anyRequestHead_of_folds` is about heads, and `HttpReplay.Http.folds_self` says
  that every head has foldings.
-/

namespace HttpReplay

/-! ### Trimming -/

namespace Bytes

section Trimming

variable {p q : UInt8 → Bool} {a b c : UInt8}

/-- Dropping from the front stops at a byte that is not of the class. -/
theorem dropWhile_append_cons (h : p a = false) (front back : Bytes) :
    (front ++ a :: back).dropWhile p = front.dropWhile p ++ a :: back := by
  rw [List.dropWhile_append]
  split
  · rename_i he
    rw [List.isEmpty_iff.mp he, List.dropWhile_cons_of_neg (by simp [h]), List.nil_append]
  · rfl

/-- Dropping from the back stops at a byte that is not of the class. -/
theorem dropBack_append_cons (h : p b = false) (front back : Bytes) :
    dropBack p (front ++ b :: back) = front ++ b :: dropBack p back := by
  rw [dropBack, dropBack, List.reverse_append, List.reverse_cons, List.append_assoc,
    List.singleton_append, dropWhile_append_cons h]
  simp

/-- **Trimming by parts**: where two bytes next to a third one are not of the class, what stands on
either side is trimmed by itself. -/
theorem trimBy_split (ha : p a = false) (hb : p b = false) (front back : Bytes) :
    trimBy p (front ++ a :: c :: b :: back) =
      trimBy p (front ++ [a]) ++ c :: trimBy p (b :: back) := by
  have hleft : trimBy p (front ++ [a]) = front.dropWhile p ++ [a] := by
    rw [trimBy, dropWhile_append_cons ha, dropBack_append_cons ha]
    rfl
  have hright : trimBy p (b :: back) = b :: dropBack p back := by
    rw [trimBy, List.dropWhile_cons_of_neg (by simp [hb])]
    exact dropBack_append_cons hb [] back
  have hcut : front.dropWhile p ++ a :: c :: b :: back =
      (front.dropWhile p ++ [a, c]) ++ b :: back := by simp
  rw [trimBy, dropWhile_append_cons ha, hcut, dropBack_append_cons hb, hleft, hright]
  simp

theorem trimBy_append_of_forall {front : Bytes} (h : ∀ b ∈ front, p b) (text : Bytes) :
    trimBy p (front ++ text) = trimBy p text := by
  rw [trimBy, List.dropWhile_append_of_pos h, trimBy]

theorem dropWhile_congr {text : Bytes} (h : ∀ b ∈ text, p b = q b) :
    text.dropWhile p = text.dropWhile q := by
  induction text with
  | nil => rfl
  | cons b text ih =>
    obtain ⟨hb, htext⟩ := List.forall_mem_cons.mp h
    rw [List.dropWhile_cons, List.dropWhile_cons, hb, ih htext]

/-- Two classes that agree on a text trim it alike. -/
theorem trimBy_congr {text : Bytes} (h : ∀ b ∈ text, p b = q b) :
    trimBy p text = trimBy q text := by
  rw [trimBy, trimBy, dropWhile_congr h, dropBack, dropBack, dropWhile_congr]
  intro b hb
  exact h b ((List.dropWhile_suffix q).subset (List.mem_reverse.mp hb))

end Trimming

end Bytes

namespace Http

open Scan

/-- Among the bytes of a value the white space is the blanks. -/
theorem isSpace_eq_isBlank {b : UInt8} (h : isFieldText b = true) :
    Byte.isSpace b = Byte.isBlank b := by
  have hlf : b ≠ Byte.lf := by rintro rfl; exact absurd h (by decide)
  have hff : b ≠ 12 := by rintro rfl; exact absurd h (by decide)
  have hcr : b ≠ Byte.cr := by rintro rfl; exact absurd h (by decide)
  rw [Byte.isSpace, beq_eq_false_iff_ne.mpr hlf, beq_eq_false_iff_ne.mpr hff,
    beq_eq_false_iff_ne.mpr hcr, Bool.or_false, Bool.or_false, Bool.or_false, Byte.isBlank]

theorem isSpace_of_isBlank {b : UInt8} (h : Byte.isBlank b = true) : Byte.isSpace b = true := by
  simp only [Byte.isBlank, Bool.or_eq_true, Byte.isSpace] at h ⊢
  tauto

theorem isToken_of_isBlank {b : UInt8} (h : Byte.isBlank b = true) : isToken b = false := by
  simp only [Byte.isBlank, Bool.or_eq_true, beq_iff_eq] at h
  rcases h with rfl | rfl <;> decide

/-! ### Folded lines by the strict rules -/

section Strict

variable {room : Nat} {name text ending lines lines' : Bytes}

/-- A line that begins with a blank is none of a field. -/
theorem fieldLines_of_isBlank {b : UInt8} (hb : Byte.isBlank b = true) (rest : Bytes) :
    fieldLines room (b :: rest) = .refused .headerName := by
  have hne : ¬ (b = Byte.lf ∨ b = Byte.cr) := by
    rintro (rfl | rfl) <;> exact absurd hb (by decide)
  have hcolon : b ≠ Byte.colon := by
    rintro rfl
    exact absurd hb (by decide)
  rw [fieldLines_of_field hne, fieldLine, upTo, if_neg hcolon, isToken_of_isBlank hb]
  rfl

/-- A text that is folded at all has a line end with a blank behind it. -/
theorem FoldsText.eq_or_broken {folded : Bytes} (h : FoldsText text folded)
    (htext : ∀ b ∈ text, isFieldText b) :
    folded = text ∨ ∃ front ending b back, folded = front ++ (ending ++ b :: back) ∧
      (∀ c ∈ front, isFieldText c) ∧ IsLineEnd ending ∧ Byte.isBlank b = true := by
  induction h with
  | nil => exact Or.inl rfl
  | @keep b text folded h ih =>
    obtain ⟨hb, htext⟩ := List.forall_mem_cons.mp htext
    rcases ih htext with rfl | ⟨front, ending, c, back, rfl, hfront, hend, hc⟩
    · exact Or.inl rfl
    · exact Or.inr ⟨b :: front, ending, c, back, rfl, List.forall_mem_cons.mpr ⟨hb, hfront⟩, hend,
        hc⟩
  | @fold a b fold text folded ha hb hfold h ih =>
    -- The first line ends behind the byte in front of the space.
    obtain ⟨ending, blanks, hend, hne, hblanks, rfl⟩ := hfold
    obtain ⟨c, blanks, rfl⟩ := List.exists_cons_of_ne_nil hne
    refine Or.inr ⟨[a], ending, c, blanks ++ folded, by simp, ?_, hend,
      hblanks c List.mem_cons_self⟩
    simpa using htext a List.mem_cons_self

/-- **Lines that are folded at all** are refused by the strict rules for a name that is none. -/
theorem FoldsLines.eq_or_refused {fields : List Field} {left : Bytes} (h : FoldsLines lines lines')
    (hd : fieldLines room lines = .done fields left) :
    lines' = lines ∨ ∀ rest, fieldLines room (lines' ++ rest) = .refused .headerName := by
  induction h generalizing room fields with
  | empty => exact Or.inl rfl
  | @line name text folded ending lines lines' hne hname htext hfolds hend _ ih =>
    rw [fieldLines_line hne hname htext hend] at hd
    rcases room with _ | room
    · cases hd
    obtain ⟨fields, hmore, rfl⟩ := map_eq_done.mp hd
    have happend : ∀ value rest : Bytes,
        name ++ Byte.colon :: (value ++ (ending ++ lines')) ++ rest =
          name ++ Byte.colon :: (value ++ (ending ++ (lines' ++ rest))) := by simp
    -- The line is the first that is folded, or the refusal comes from a later one.
    rcases hfolds.eq_or_broken htext with rfl | ⟨front, ending', b, back, rfl, hfront, hend', hb⟩
    · rcases ih hmore with rfl | hrefused
      · exact Or.inl rfl
      · refine Or.inr fun rest => ?_
        rw [happend, fieldLines_line hne hname htext hend, fieldLinesAfter, hrefused]
        rfl
    · refine Or.inr fun rest => ?_
      rw [happend, List.append_assoc, List.append_assoc, List.cons_append,
        fieldLines_line hne hname hfront hend', fieldLinesAfter, fieldLines_of_isBlank hb]
      rfl

end Strict

/-! ### Folded lines by the lenient rules -/

namespace Lenient

/-- **The beginning of a line that adds to a field.** Whatever value the line goes on with, the
field at the front of those so far is then one with this name, whose value is the part that was
there before and the value of the line. -/
structure Opens (start : Bytes) (fields : List Field) (name value : Bytes) (before : List Field) :
    Prop where
  ne_nil : start ≠ []
  lf_notMem : Byte.lf ∉ start
  cr_notMem : Byte.cr ∉ start
  adds : ∀ text, addLine? fields (start ++ text) =
    some (⟨name, value ++ Bytes.trimBy Byte.isSpace text⟩ :: before)

/-- The line of a field begins with its name. -/
theorem opens_name {name : Bytes} (hne : name ≠ []) (hname : ∀ b ∈ name, isToken b)
    (fields : List Field) : Opens (name ++ [Byte.colon]) fields name [] fields where
  ne_nil := by simp
  lf_notMem := by
    have : Byte.lf ∉ name := fun h => absurd (hname _ h) (by decide)
    simpa using ⟨this, by decide⟩
  cr_notMem := by
    have : Byte.cr ∉ name := fun h => absurd (hname _ h) (by decide)
    simpa using ⟨this, by decide⟩
  adds := by
    intro text
    have hcolon : ∀ b ∈ name, (b != Byte.colon) = true := by
      intro b hb
      refine bne_iff_ne.mpr ?_
      rintro rfl
      exact absurd (hname _ hb) (by decide)
    have hblank : ¬ (name ++ [Byte.colon] ++ text).head?.any Byte.isBlank = true := by
      obtain ⟨b, more, rfl⟩ := List.exists_cons_of_ne_nil hne
      intro h
      exact absurd (isToken_of_isBlank h) (by simp [hname b List.mem_cons_self])
    have hline : name ++ [Byte.colon] ++ text = name ++ Byte.colon :: text := by simp
    unfold addLine?
    rw [if_neg hblank, hline, field?, List.takeWhile_append_of_pos hcolon,
      List.dropWhile_append_of_pos hcolon, List.takeWhile_cons_of_neg (by simp),
      List.dropWhile_cons_of_neg (by simp), List.append_nil]
    simp only [if_pos (And.intro hne (List.all_eq_true.mpr hname)), Option.map_some,
      List.nil_append]

/-- A continuation begins with blanks, and is joined with a space. -/
theorem opens_blanks {blanks : Bytes} (hne : blanks ≠ []) (hblanks : ∀ b ∈ blanks, Byte.isBlank b)
    (name value : Bytes) (before : List Field) :
    Opens blanks (⟨name, value⟩ :: before) name (value ++ [Byte.sp]) before where
  ne_nil := hne
  lf_notMem := fun h => absurd (hblanks _ h) (by decide)
  cr_notMem := fun h => absurd (hblanks _ h) (by decide)
  adds := by
    intro text
    have hblank : (blanks ++ text).head?.any Byte.isBlank = true := by
      obtain ⟨b, more, rfl⟩ := List.exists_cons_of_ne_nil hne
      exact hblanks b List.mem_cons_self
    rw [addLine?, if_pos hblank]
    simp only [continued]
    rw [Bytes.trimBy_append_of_forall fun b hb => isSpace_of_isBlank (hblanks b hb)]
    simp

section Lines

variable {why : Refusal} {start text folded ending name value : Bytes}
  {fields before : List Field}

/-- The line that a beginning and a value make. -/
theorem Opens.fieldLines (ho : Opens start fields name value before)
    (htext : ∀ b ∈ text, isFieldText b) (hend : IsLineEnd ending) (rest : Bytes) :
    fieldLines why fields (start ++ (text ++ (ending ++ rest))) =
      fieldLines why (⟨name, value ++ Bytes.trimBy Byte.isSpace text⟩ :: before) rest := by
  have hlf : Byte.lf ∉ start ++ text := by
    have : Byte.lf ∉ text := fun h => absurd (htext _ h) (by decide)
    simpa using ⟨ho.lf_notMem, this⟩
  have hcr : Byte.cr ∉ start ++ text := by
    have : Byte.cr ∉ text := fun h => absurd (htext _ h) (by decide)
    simpa using ⟨ho.cr_notMem, this⟩
  have hne : start ++ text ≠ [] := by simp [ho.ne_nil]
  have hline := line?_of_lineEnd hlf hcr (hend.lineEnd .newLine rest)
  rw [← List.append_assoc, fieldLines_of_some hline, if_neg hne, ho.adds text]

/-- **A folded value is read as the value.** The induction is on the folding. Bytes that stay are
put off until their line ends; a fold ends a line and opens the next one. -/
theorem fieldLines_of_foldsText (h : FoldsText text folded) :
    ∀ {start fields name value before front}, Opens start fields name value before →
      (∀ b ∈ front ++ text, isFieldText b) → IsLineEnd ending → ∀ rest,
      fieldLines why fields (start ++ (front ++ folded ++ (ending ++ rest))) =
        fieldLines why (⟨name, value ++ Bytes.trimBy Byte.isSpace (front ++ text)⟩ :: before)
          rest := by
  induction h with
  | nil =>
    intro start fields name value before front ho htext hend rest
    exact ho.fieldLines htext hend rest
  | @keep b text folded h ih =>
    intro start fields name value before front ho htext hend rest
    have hcons : ∀ l : Bytes, front ++ b :: l = front ++ [b] ++ l := by simp
    simp only [hcons folded, hcons text] at htext ⊢
    exact ih ho htext hend rest
  | @fold a b fold text folded ha hb hfold h ih =>
    intro start fields name value before front ho htext hend rest
    obtain ⟨ending', blanks, hend', hne, hblanks, rfl⟩ := hfold
    have hspace : ∀ {c : UInt8}, c ∈ front ++ a :: Byte.sp :: b :: text → Byte.isBlank c = false →
        Byte.isSpace c = false := fun hc hblank => by rw [isSpace_eq_isBlank (htext _ hc), hblank]
    have hleft : ∀ c ∈ front ++ [a], isFieldText c := by
      intro c hc
      refine htext c ?_
      simp only [List.mem_append, List.mem_cons, List.not_mem_nil, or_false] at hc ⊢
      tauto
    have hright : ∀ c ∈ [] ++ b :: text, isFieldText c := by
      intro c hc
      refine htext c ?_
      simp only [List.nil_append, List.mem_cons, List.mem_append] at hc ⊢
      tauto
    -- The line up to the fold, and then the rest of the value behind the blanks.
    have hcut : start ++ (front ++ a :: (ending' ++ blanks ++ folded) ++ (ending ++ rest)) =
        start ++ (front ++ [a] ++
          (ending' ++ (blanks ++ ([] ++ folded ++ (ending ++ rest))))) := by simp
    rw [hcut, ho.fieldLines hleft hend', ih (opens_blanks hne hblanks _ _ _) hright hend,
      Bytes.trimBy_split (hspace (by simp) ha) (hspace (by simp) hb)]
    simp

end Lines

/-- **Folded lines are read as the lines**, where the strict rules read those. -/
theorem fieldLines_of_folds {room : Nat} {why : Refusal} {lines lines' left : Bytes}
    {fields : List Field} (h : FoldsLines lines lines')
    (hd : Http.fieldLines room lines = .done fields left) (before : List Field) (rest : Bytes) :
    fieldLines why before (lines' ++ rest) = .done (before.reverse ++ fields) rest := by
  induction h generalizing room fields before with
  | @empty ending hend =>
    have hline := @line?_of_lineEnd [] _ _ _ _ List.not_mem_nil List.not_mem_nil
      (hend.lineEnd .newLine rest)
    rw [← List.append_nil ending, fieldLines_ending hend] at hd
    cases hd
    rw [List.nil_append] at hline
    rw [fieldLines_of_some hline, if_pos rfl, List.append_nil]
  | @line name text folded ending lines lines' hne hname htext hfolds hend _ ih =>
    rw [fieldLines_line hne hname htext hend] at hd
    rcases room with _ | room
    · cases hd
    obtain ⟨fields, hmore, rfl⟩ := map_eq_done.mp hd
    have hcut : name ++ Byte.colon :: (folded ++ (ending ++ lines')) ++ rest =
        name ++ [Byte.colon] ++ ([] ++ folded ++ (ending ++ (lines' ++ rest))) := by simp
    rw [hcut, fieldLines_of_foldsText hfolds (opens_name hne hname before) htext hend, ih hmore,
      List.nil_append, List.nil_append,
      Bytes.trimBy_congr fun b hb => isSpace_eq_isBlank (htext b hb)]
    simp

end Lenient

/-! ### Folded heads -/

/-- A head whose first line the strict rules read is what they make of its field lines. -/
theorem requestHeadWidening_of_firstLine {first lines method : Bytes} {path : String}
    {version : Nat} {b : UInt8} (hb : b ≠ Byte.lf ∧ b ≠ Byte.cr)
    (h : requestLine (b :: first ++ Byte.lf :: lines) = .done (method, path, version) lines)
    (later : Bytes) :
    requestHeadWidening (b :: first ++ Byte.lf :: later) =
      (fieldLines mostFields later).map fun fields =>
        ⟨Bytes.latin1 method, path, version, fields⟩ := by
  have hagain := wholeLine_requestLine.done_of_done steady_requestLine h later
  rw [requestHeadWidening_eq, requestHead_eq, List.cons_append, emptyLines_cons hb.1 hb.2,
    bind_done, ← List.cons_append, hagain, bind_done]

/-- Bytes in front of a text stay. -/
theorem FoldsText.append_left {text folded : Bytes} (h : FoldsText text folded) (front : Bytes) :
    FoldsText (front ++ text) (front ++ folded) := by
  induction front with
  | nil => exact h
  | cons b front ih => exact .keep ih

theorem FoldsText.refl (text : Bytes) : FoldsText text text := by
  have h := FoldsText.nil.append_left text
  rwa [List.append_nil] at h

/-- Field lines can be folded, at no place to begin with. -/
theorem IsFieldLines.foldsLines {lines : Bytes} {fields : List Field}
    (h : IsFieldLines lines fields) : FoldsLines lines lines := by
  induction h with
  | empty hend => exact .empty hend
  | line hne hname htext hend _ ih => exact .line hne hname htext (.refl _) hend ih

/-- A head that the strict rules read, if no empty lines stand in front of it, is its first line and
its field lines. -/
theorem exists_firstLine {head : Bytes} {parsed : RequestHead}
    (hd : requestHeadWidening head = .done parsed [])
    (hstart : head.head? ≠ some Byte.lf ∧ head.head? ≠ some Byte.cr) :
    ∃ b first lines method, head = b :: first ++ Byte.lf :: lines ∧ Byte.lf ∉ b :: first ∧
      (b ≠ Byte.lf ∧ b ≠ Byte.cr) ∧
      requestLine head = .done (method, parsed.path, parsed.version) lines ∧
      parsed.method = Bytes.latin1 method ∧
      fieldLines mostFields lines = .done parsed.fields [] := by
  obtain ⟨bytes, method, lines, hempty, hfirst, hmethod, hfields⟩ := requestHeadWidening_eq_done hd
  rcases head with _ | ⟨b, head⟩
  · cases hempty
  have hb : b ≠ Byte.lf ∧ b ≠ Byte.cr := by simpa using hstart
  rw [emptyLines_cons hb.1 hb.2] at hempty
  cases hempty
  obtain ⟨line, he, hlf⟩ := wholeLine_requestLine.2 _ _ _ hfirst
  rcases line with _ | ⟨c, first⟩
  · cases he
    exact absurd rfl hb.1
  · cases he
    exact ⟨_, first, lines, method, rfl, hlf, hb, hfirst, hmethod, hfields⟩

/-- **Every head can be folded**, at no place to begin with, if the strict rules read it and no
empty lines stand in front of it. -/
theorem folds_self {head : Bytes} {parsed : RequestHead}
    (hd : requestHeadWidening head = .done parsed [])
    (hstart : head.head? ≠ some Byte.lf ∧ head.head? ≠ some Byte.cr) : Folds head head := by
  obtain ⟨b, first, lines, method, rfl, hlf, -, -, -, hfields⟩ := exists_firstLine hd hstart
  obtain ⟨lines, rfl, hlines, -⟩ := fieldLines_eq_done.mp hfields
  rw [List.append_nil]
  exact ⟨b :: first, lines, lines, hlf, hlines.foldsLines, rfl, rfl⟩

/-- **A folded head is read as the head**, where the strict rules read that, no empty lines stand in
front of it, and its target is ASCII. What is not folded at all the strict rules read again; all
else they refuse, and the lenient ones read it. -/
theorem anyRequestHead_of_folds {head folded : Bytes} {parsed : RequestHead}
    (hd : requestHeadWidening head = .done parsed [])
    (hstart : head.head? ≠ some Byte.lf ∧ head.head? ≠ some Byte.cr)
    (hascii : ∀ b ∈ Bytes.ofText parsed.path, b < 128) (hf : Folds head folded) (rest : Bytes) :
    anyRequestHead (folded ++ rest) = .done parsed rest := by
  obtain ⟨b, first, lines, method, rfl, hlf, hb, hfirst, hmethod, hfields⟩ :=
    exists_firstLine hd hstart
  obtain ⟨first', lines₀, lines', hlf', hlines, he, rfl⟩ := hf
  -- The first line of the head is the one that stays.
  have hsplit := Bytes.splitLine?_eq_some.mpr ⟨he, hlf'⟩
  rw [Bytes.splitLine?_eq_some.mpr ⟨rfl, hlf⟩] at hsplit
  cases hsplit
  have hcut : b :: first ++ Byte.lf :: lines' ++ rest =
      b :: first ++ Byte.lf :: (lines' ++ rest) := by simp
  have hstrict := requestHeadWidening_of_firstLine hb hfirst (lines' ++ rest)
  rcases hlines.eq_or_refused hfields with rfl | hrefused
  · have hsame := (steady_fieldLines mostFields).done hfields rest
    rw [hsame, Scan.map, ← hmethod, List.nil_append] at hstrict
    rw [hcut, anyRequestHead_of_ne_refused (by rw [hstrict]; simp), hstrict]
  · rw [hrefused, Scan.map] at hstrict
    have hline : ∀ r : Bytes, Lenient.line? (b :: first ++ Byte.lf :: r) =
        some (Lenient.dropCr (b :: first), r) := fun r =>
      Lenient.line?_eq_some.mpr ⟨b :: first, rfl, hlf, rfl⟩
    obtain ⟨line, target, hline', hwords, hpath⟩ := requestLine?_of_requestLine hfirst
    rw [hline] at hline'
    cases hline'
    -- The target is ASCII, so it is the same text by both rules.
    have htarget := Bytes.text?_of_forall (Bytes.ofText_of_text? hpath ▸ hascii)
    rw [hpath, Option.some.injEq] at htarget
    have hlenient : Lenient.requestHead .headerName (b :: first ++ Byte.lf :: (lines' ++ rest)) =
        .done parsed rest := by
      rw [Lenient.requestHead_of_some (hline _), hwords]
      dsimp only
      rw [Lenient.fieldLines_of_folds hlines hfields, ← htarget, ← hmethod]
      rfl
    rw [hcut, anyRequestHead_of_refused hstrict, hlenient]
    rfl

end Http

end HttpReplay
