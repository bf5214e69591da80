import HttpReplay.Proofs.Capture.Transcripts

/-!
# The numbers of lines

A reader counts the lines that it reads, and an error names the line that it is about. What a call
reads before it fails are lines in which nothing is wrong; then comes the malformed line, and the
error bears its number. A line that is not text is read without being counted, so from then on all
numbers are too low by one for each such line.

* `HttpReplay.Reader.Malformed` – what can be wrong with a line, and how it is reported;
* `HttpReplay.Reader.Fails` – what a reader went through when it failed;
* `HttpReplay.Reader.next_spec` and `HttpReplay.Reader.streams_spec` – **one stream, and all**;
* `HttpReplay.Reader.count_of_calls` – the count and the errors after any number of calls.
-/

namespace HttpReplay

/-- The number of the line that an error names, if it names one. -/
def SessionError.lineNumber? : SessionError → Option Nat
  | line number .. => some number
  | record _ => some 0
  | content number _ => some number
  | io _ | store _ => none

namespace Reader

/-! ### What can be wrong with a line -/

/-- Is a line text? -/
def isText (line : Bytes) : Bool := (Bytes.text? line).isSome

/-- The text of a line, without its end. -/
def textOf? (line : Bytes) : Option String := (Bytes.text? line).map trimEnd

/-- Does a line stand between streams? -/
def isSeparator (line : Bytes) : Bool := (textOf? line).any isBlank

/-- **What is wrong with a line**, which is read as the first of a stream or as one of its chunks,
and how that is reported if the line has this number. -/
inductive Malformed (isFirst : Bool) (number : Nat) (line : Bytes) : SessionError → Prop
  | encoding : textOf? line = none → Malformed isFirst number line (.io .invalidText)
  | metadata {text : String} {fault : Json.Fault} : isFirst = true → textOf? line = some text →
    isBlank text = false → Metadata.ofText text = .error fault →
    Malformed isFirst number line (.line number text fault)
  | record {text : String} {fault : Json.Fault} : isFirst = false → textOf? line = some text →
    isBlank text = false → ChunkRecord.ofText text = .error fault →
    Malformed isFirst number line (.line number text fault)
  | content {text : String} {record : ChunkRecord} {e : Base64.Error} : isFirst = false →
    textOf? line = some text → isBlank text = false → ChunkRecord.ofText text = .ok record →
    record.chunk = .error e → Malformed isFirst number line (.content number e)

/-- **Lines in which nothing is wrong.** It is told of the first of them, and of the line behind
them, whether it is the first of a stream. -/
inductive Sound : Bool → List Bytes → Bool → Prop
  | nil {isFirst : Bool} : Sound isFirst [] isFirst
  | cons {isFirst isNext : Bool} {line : Bytes} {lines : List Bytes} :
    (∀ number e, ¬ Malformed isFirst number line e) → Sound (isSeparator line) lines isNext →
    Sound isFirst (line :: lines) isNext

variable {isFirst isNext isLast : Bool} {number : Nat} {line : Bytes} {text : String}
  {e : SessionError}

theorem isText_of_textOf? (h : textOf? line = some text) : isText line = true := by
  obtain ⟨raw, hraw, -⟩ := Option.map_eq_some_iff.mp h
  rw [isText, hraw]
  rfl

theorem isSeparator_of_textOf? (h : textOf? line = some text) :
    isSeparator line = isBlank text := by
  rw [isSeparator, h]
  rfl

/-- Nothing is wrong with a blank line. -/
theorem not_malformed_of_isBlank (htext : textOf? line = some text) (hblank : isBlank text = true) :
    ¬ Malformed isFirst number line e := by
  intro h
  cases h <;> simp_all

/-- Nothing is wrong with the first line of a stream if it is read. -/
theorem not_malformed_of_metadata {m : Metadata} (htext : textOf? line = some text)
    (hm : Metadata.ofText text = .ok m) : ¬ Malformed true number line e := by
  intro h
  cases h <;> simp_all

/-- What is wrong with the line of a chunk is what makes its reading fail. -/
theorem malformed_of_chunkOf (htext : textOf? line = some text) (hblank : isBlank text = false)
    (h : chunkOf number text = .error e) : Malformed false number line e := by
  unfold chunkOf at h
  cases hrecord : ChunkRecord.ofText text with
  | error fault =>
    simp only [hrecord, Except.error.injEq] at h
    exact h ▸ .record rfl htext hblank hrecord
  | ok record =>
    cases hchunk : record.chunk with
    | error b =>
      simp only [hrecord, hchunk, Except.error.injEq] at h
      exact h ▸ .content rfl htext hblank hrecord hchunk
    | ok c => simp [hrecord, hchunk] at h

theorem not_malformed_of_chunkOf {n : Nat} {c : Chunk} (htext : textOf? line = some text)
    (h : chunkOf n text = .ok c) : ¬ Malformed false number line e := by
  unfold chunkOf at h
  intro hwrong
  cases hwrong <;> simp_all

/-- An error about a line names its number or none. -/
theorem Malformed.eq_of_lineNumber? (h : Malformed isFirst number line e) {n : Nat}
    (hn : e.lineNumber? = some n) : n = number := by
  cases h <;> cases hn <;> rfl

theorem Sound.append {first second : List Bytes} (h : Sound isFirst first isNext)
    (h' : Sound isNext second isLast) : Sound isFirst (first ++ second) isLast := by
  induction h with
  | nil => exact h'
  | cons hline _ ih => exact .cons hline (ih h')

/-- Lines in which nothing is wrong are text. -/
theorem Sound.isText {lines : List Bytes} (h : Sound isFirst lines isNext) :
    ∀ line ∈ lines, isText line = true := by
  induction h with
  | nil => exact fun _ h => absurd h List.not_mem_nil
  | @cons isFirst _ line _ hline _ ih =>
    refine List.forall_mem_cons.mpr ⟨?_, ih⟩
    cases htext : textOf? line with
    | none => exact absurd (.encoding htext) (hline 0 _)
    | some text => exact isText_of_textOf? htext

/-! ### What a reader goes through -/

variable {r r' r'' : Reader} {passed more : List Bytes}

/-- **A reader goes over some lines**, of which it counts those that are text. -/
structure Consumes (r r' : Reader) (passed : List Bytes) : Prop where
  unread : r.unread = passed ++ r'.unread
  failure : r.failure = r'.failure
  count : r'.count = r.count + passed.countP isText

/-- A reader goes over lines in which nothing is wrong. -/
def Passes (isFirst : Bool) (r r' : Reader) (isNext : Bool) : Prop :=
  ∃ passed, Consumes r r' passed ∧ Sound isFirst passed isNext

/-- **What a reader went through when it failed**: lines in which nothing is wrong, and then a line
that is malformed, or the place where its input fails. -/
inductive Fails (isFirst : Bool) (r r' : Reader) : SessionError → Prop
  | malformed {passed : List Bytes} {line : Bytes} {isNext : Bool} {e : SessionError} :
    Consumes r r' (passed ++ [line]) → Sound isFirst passed isNext →
    Malformed isNext (r.count + passed.length + 1) line e → Fails isFirst r r' e
  | broken {passed : List Bytes} {isNext : Bool} {fault : IoFault} :
    Consumes r r' passed → Sound isFirst passed isNext → r'.unread = [] →
    r'.failure = some fault → Fails isFirst r r' (.io fault)

theorem Consumes.refl (r : Reader) : Consumes r r [] := ⟨rfl, rfl, rfl⟩

theorem Consumes.trans (h : Consumes r r' passed) (h' : Consumes r' r'' more) :
    Consumes r r'' (passed ++ more) where
  unread := by rw [h.unread, h'.unread, List.append_assoc]
  failure := h.failure.trans h'.failure
  count := by rw [h'.count, h.count, List.countP_append, Nat.add_assoc]

theorem Passes.refl (r : Reader) : Passes isFirst r r isFirst := ⟨[], .refl r, .nil⟩

theorem Passes.trans (h : Passes isFirst r r' isNext) (h' : Passes isNext r' r'' isLast) :
    Passes isFirst r r'' isLast := by
  obtain ⟨passed, hpassed, hsound⟩ := h
  obtain ⟨more, hmore, hsound'⟩ := h'
  exact ⟨passed ++ more, hpassed.trans hmore, hsound.append hsound'⟩

/-- A failure behind lines in which nothing is wrong. -/
theorem Passes.fails (h : Passes isFirst r r' isNext) (h' : Fails isNext r' r'' e) :
    Fails isFirst r r'' e := by
  obtain ⟨passed, hpassed, hsound⟩ := h
  cases h' with
  | @malformed more line _ _ hmore hsound' hline =>
    have hcount : r'.count + more.length + 1 = r.count + (passed ++ more).length + 1 := by
      rw [hpassed.count, List.countP_eq_length.mpr hsound.isText, List.length_append,
        ← Nat.add_assoc]
    exact .malformed (List.append_assoc .. ▸ hpassed.trans hmore) (hsound.append hsound')
      (hcount ▸ hline)
  | broken hmore hsound' hend hfault =>
    exact .broken (hpassed.trans hmore) (hsound.append hsound') hend hfault

/-- Where nothing is left to read it does not matter what would come next. -/
theorem Passes.of_nil (h : Passes isFirst r r' isLast) (hnil : r.unread = []) :
    Passes isNext r r' isNext := by
  obtain ⟨passed, hpassed, -⟩ := h
  obtain ⟨rfl, -⟩ := List.append_eq_nil_iff.mp (hpassed.unread.symm.trans hnil)
  exact ⟨[], hpassed, .nil⟩

theorem Fails.of_nil (h : Fails isFirst r r' e) (hnil : r.unread = []) : Fails isNext r r' e := by
  cases h with
  | malformed hpassed =>
    have hunread := hpassed.unread
    simp [hnil] at hunread
  | broken hpassed _ hend hfault =>
    obtain ⟨rfl, -⟩ := List.append_eq_nil_iff.mp (hpassed.unread.symm.trans hnil)
    exact .broken hpassed .nil hend hfault

/-! ### One line -/

/-- **Reading a line**, all of it: the end of the input, a fault there, a line that is not text, or
a line. -/
theorem line_cases (r : Reader) :
    (r.unread = [] ∧ r.failure = none ∧ r.line = (.ok none, r)) ∨
    (∃ fault, r.unread = [] ∧ r.failure = some fault ∧ r.line = (.error fault, r)) ∨
    ∃ line r', Consumes r r' [line] ∧
      ((textOf? line = none ∧ r.line = (.error .invalidText, r')) ∨
        ∃ text, textOf? line = some text ∧ r'.count = r.count + 1 ∧
          r.line = (.ok (some text), r')) := by
  obtain ⟨unread, failure, count⟩ := r
  cases unread with
  | nil =>
    cases failure with
    | none => exact .inl ⟨rfl, rfl, rfl⟩
    | some fault => exact .inr (.inl ⟨fault, rfl, rfl, rfl⟩)
  | cons line unread =>
    refine .inr (.inr ⟨line, ?_⟩)
    cases hraw : Bytes.text? line with
    | none =>
      refine ⟨⟨unread, failure, count⟩, ⟨rfl, rfl, ?_⟩, .inl ⟨?_, ?_⟩⟩
      · simp [isText, hraw]
      · rw [textOf?, hraw]
        rfl
      · simp only [Reader.line, hraw]
    | some raw =>
      refine ⟨⟨unread, failure, count + 1⟩, ⟨rfl, rfl, ?_⟩, .inr ⟨trimEnd raw, ?_, rfl, ?_⟩⟩
      · simp [isText, hraw]
      · rw [textOf?, hraw]
        rfl
      · simp only [Reader.line, hraw]

/-- A single line that is malformed. -/
theorem fails_of_malformed (hone : Consumes r r' [line])
    (h : Malformed isFirst (r.count + 1) line e) : Fails isFirst r r' e := by
  have hfirst : Consumes r r' ([] ++ [line]) := hone
  exact .malformed hfirst .nil h

theorem fails_of_line {fault : IoFault} (h : r.line = (.error fault, r')) :
    Fails isFirst r r' (.io fault) := by
  rcases r.line_cases with ⟨-, -, hline⟩ | ⟨f, hnil, hfailure, hline⟩ |
    ⟨line, after, hone, ⟨htext, hline⟩ | ⟨text, -, -, hline⟩⟩ <;> rw [h] at hline <;> cases hline
  · exact .broken (.refl r) .nil hnil hfailure
  · exact fails_of_malformed hone (.encoding htext)

theorem ended_of_line (h : r.line = (.ok none, r')) :
    r' = r ∧ r.unread = [] ∧ r.failure = none := by
  rcases r.line_cases with ⟨hnil, hfailure, hline⟩ | ⟨f, -, -, hline⟩ |
    ⟨line, after, -, ⟨-, hline⟩ | ⟨text, -, -, hline⟩⟩ <;> rw [h] at hline <;> cases hline
  exact ⟨rfl, hnil, hfailure⟩

theorem consumes_of_line (h : r.line = (.ok (some text), r')) :
    ∃ line, textOf? line = some text ∧ Consumes r r' [line] ∧ r'.count = r.count + 1 := by
  rcases r.line_cases with ⟨-, -, hline⟩ | ⟨f, -, -, hline⟩ |
    ⟨line, after, hone, ⟨-, hline⟩ | ⟨text', htext, hcount, hline⟩⟩ <;> rw [h] at hline <;>
    cases hline
  exact ⟨line, htext, hone, hcount⟩

/-- A line that was read and in which nothing is wrong. -/
theorem passes_of_line (hone : Consumes r r' [line]) (htext : textOf? line = some text)
    (hblank : isBlank text = isNext) (hline : ∀ number e, ¬ Malformed isFirst number line e) :
    Passes isFirst r r' isNext := by
  refine ⟨[line], hone, .cons hline ?_⟩
  rw [isSeparator_of_textOf? htext, hblank]
  exact .nil

/-! ### One stream -/

/-- **Looking for the first line of a stream.** -/
theorem metadata_spec (r : Reader) :
    match r.metadata with
    | (.error e, r') => Fails true r r' e
    | (.ok none, r') => Passes true r r' true ∧ r'.unread = [] ∧ r'.failure = none
    | (.ok (some _), r') => Passes true r r' false := by
  fun_induction metadata r with
  | case1 r fault r' hline => exact fails_of_line hline
  | case2 r r' hline =>
    obtain ⟨rfl, hnil, hfailure⟩ := ended_of_line hline
    exact ⟨.refl r', hnil, hfailure⟩
  | case3 r text r' hline hblank ih =>
    obtain ⟨line, htext, hone, -⟩ := consumes_of_line hline
    have hpass : Passes true r r' true :=
      passes_of_line hone htext hblank fun _ _ => not_malformed_of_isBlank htext hblank
    split at ih
    · exact hpass.fails ih
    · exact ⟨hpass.trans ih.1, ih.2⟩
    · exact hpass.trans ih
  | case4 r text r' hline hblank m hm =>
    obtain ⟨line, htext, hone, -⟩ := consumes_of_line hline
    rw [Bool.not_eq_true] at hblank
    exact passes_of_line hone htext hblank fun _ _ => not_malformed_of_metadata htext hm
  | case5 r text r' hline hblank fault hm =>
    obtain ⟨line, htext, hone, hcount⟩ := consumes_of_line hline
    rw [Bool.not_eq_true] at hblank
    exact fails_of_malformed hone (hcount ▸ Malformed.metadata rfl htext hblank hm)

/-- **Reading the lines of chunks.** -/
theorem chunks_spec (r : Reader) :
    match r.chunks with
    | (.error e, r') => Fails false r r' e
    | (.ok (_, isEnded), r') => Passes false r r' isEnded ∧ (isEnded = false → r'.unread = []) := by
  fun_induction chunks r with
  | case1 r fault r' hline => exact fails_of_line hline
  | case2 r r' hline =>
    obtain ⟨rfl, hnil, -⟩ := ended_of_line hline
    exact ⟨.refl r', fun _ => hnil⟩
  | case3 r text r' hline hblank =>
    obtain ⟨line, htext, hone, -⟩ := consumes_of_line hline
    refine ⟨?_, fun h => by cases h⟩
    exact passes_of_line hone htext hblank fun _ _ => not_malformed_of_isBlank htext hblank
  | case4 r text r' hline hblank e hc =>
    obtain ⟨line, htext, hone, hcount⟩ := consumes_of_line hline
    rw [Bool.not_eq_true] at hblank
    exact fails_of_malformed hone (hcount ▸ malformed_of_chunkOf htext hblank hc)
  | case5 r text r' hline hblank c hc e r'' hrest ih =>
    obtain ⟨line, htext, hone, -⟩ := consumes_of_line hline
    rw [Bool.not_eq_true] at hblank
    rw [hrest] at ih
    have hpass : Passes false r r' false :=
      passes_of_line hone htext hblank fun _ _ => not_malformed_of_chunkOf htext hc
    exact hpass.fails ih
  | case6 r text r' hline hblank c hc cs isEnded r'' hrest ih =>
    obtain ⟨line, htext, hone, -⟩ := consumes_of_line hline
    rw [Bool.not_eq_true] at hblank
    rw [hrest] at ih
    have hpass : Passes false r r' false :=
      passes_of_line hone htext hblank fun _ _ => not_malformed_of_chunkOf htext hc
    exact ⟨hpass.trans ih.1, ih.2⟩

/-- **Reading a stream.** -/
theorem next_spec (r : Reader) :
    match r.next with
    | (.error e, r', _) => Fails true r r' e
    | (.ok none, r', _) => Passes true r r' true ∧ r'.unread = [] ∧ r'.failure = none
    | (.ok (some _), r', _) =>
      ∃ isEnded, Passes true r r' isEnded ∧ (isEnded = false → r'.unread = []) := by
  have hmetadata := r.metadata_spec
  unfold next
  rcases hm : r.metadata with ⟨e | _ | m, after⟩ <;> rw [hm] at hmetadata
  · exact hmetadata
  · exact hmetadata
  · have hchunks := after.chunks_spec
    rcases hc : after.chunks with ⟨e | ⟨cs, isEnded⟩, r'⟩ <;> rw [hc] at hchunks <;> simp only [hc]
    · exact hmetadata.fails hchunks
    · exact ⟨isEnded, hmetadata.trans hchunks.1, hchunks.2⟩

/-! ### All streams -/

/-- **Reading all streams**: it fails at the first thing that is wrong, or it comes to the end of
the input and nothing was wrong. -/
theorem streams_spec (r : Reader) :
    match r.streams.2 with
    | .error e => ∃ r', Fails true r r' e
    | .ok count => ∃ r' isNext, Passes true r r' isNext ∧ r'.unread = [] ∧ r'.failure = none ∧
      r'.count = count := by
  fun_induction streams r with
  | case1 r e r' log hnext =>
    have hspec := r.next_spec
    rw [hnext] at hspec
    exact ⟨r', hspec⟩
  | case2 r r' log hnext =>
    have hspec := r.next_spec
    rw [hnext] at hspec
    exact ⟨r', true, hspec.1, hspec.2.1, hspec.2.2, rfl⟩
  | case3 r s r' log hnext rest ending hrest ih =>
    have hspec := r.next_spec
    rw [hnext] at hspec
    obtain ⟨isEnded, hpass, hend⟩ := hspec
    rw [hrest] at ih
    cases ending with
    | error e =>
      obtain ⟨last, hfails⟩ := ih
      cases isEnded with
      | true => exact ⟨last, hpass.fails hfails⟩
      | false => exact ⟨last, hpass.fails (hfails.of_nil (hend rfl))⟩
    | ok count =>
      obtain ⟨last, isNext, hrest, hlast⟩ := ih
      cases isEnded with
      | true => exact ⟨last, isNext, hpass.trans hrest, hlast⟩
      | false => exact ⟨last, false, hpass.trans (hrest.of_nil (hend rfl)), hlast⟩

/-- **The line that an error names** is the malformed one: its number is that of the lines that
were read when the call began, and of those of the call up to it. -/
theorem Fails.lineNumber (h : Fails isFirst r r' e) {number : Nat}
    (hn : e.lineNumber? = some number) :
    ∃ passed line isNext, r.unread = passed ++ line :: r'.unread ∧ Sound isFirst passed isNext ∧
      Malformed isNext number line e ∧ number = r.count + passed.length + 1 := by
  cases h with
  | @malformed passed line isNext _ hpassed hsound hline =>
    obtain rfl := hline.eq_of_lineNumber? hn
    refine ⟨passed, line, isNext, ?_, hsound, hline, rfl⟩
    rw [hpassed.unread, List.append_assoc, List.singleton_append]
  | broken => cases hn

/-! ### Any number of calls -/

/-- The reader that so many calls leave, whether they fail or not. -/
def after (r : Reader) : Nat → Reader
  | 0 => r
  | calls + 1 => (r.after calls).next.2.1

theorem consumes_of_next (r : Reader) : ∃ passed, Consumes r r.next.2.1 passed := by
  have hspec := r.next_spec
  split at hspec <;> rename_i heq <;> rw [heq]
  · cases hspec with
    | malformed hpassed => exact ⟨_, hpassed⟩
    | broken hpassed => exact ⟨_, hpassed⟩
  · obtain ⟨⟨passed, hpassed, -⟩, -⟩ := hspec
    exact ⟨passed, hpassed⟩
  · obtain ⟨-, ⟨passed, hpassed, -⟩, -⟩ := hspec
    exact ⟨passed, hpassed⟩

theorem consumes_after (r : Reader) (calls : Nat) :
    ∃ passed, Consumes r (r.after calls) passed := by
  induction calls with
  | zero => exact ⟨[], .refl r⟩
  | succ calls ih =>
    obtain ⟨passed, hpassed⟩ := ih
    obtain ⟨more, hmore⟩ := (r.after calls).consumes_of_next
    exact ⟨passed ++ more, hpassed.trans hmore⟩

theorem lines_of_notMem {bytes : Bytes} (h : Byte.lf ∉ bytes) :
    lines bytes = if bytes = [] then [] else [bytes] := by
  have hall : ∀ current, linesFrom current bytes =
      if current.reverse ++ bytes = [] then [] else [current.reverse ++ bytes] := by
    induction bytes with
    | nil => intro current; cases current <;> simp [linesFrom]
    | cons b bytes ih =>
      intro current
      have hb : b ≠ Byte.lf := fun heq => h (heq ▸ List.mem_cons_self)
      rw [linesFrom, if_neg hb, ih fun hm => h (List.mem_cons_of_mem b hm)]
      simp
  exact hall []

/-- **Lines lie apart in the bytes**: where the lines of an input are cut in two, so are its
bytes. -/
theorem exists_append_of_lines {bytes : Bytes} {front back : List Bytes}
    (h : lines bytes = front ++ back) :
    ∃ taken rest, bytes = taken ++ rest ∧ lines taken = front ∧ lines rest = back := by
  induction front generalizing bytes with
  | nil => exact ⟨[], bytes, rfl, rfl, h⟩
  | cons line front ih =>
    by_cases hlf : Byte.lf ∈ bytes
    · obtain ⟨first, others, rfl, hfirst⟩ := List.eq_append_cons_of_mem hlf
      rw [lines, linesFrom_append hfirst] at h
      obtain ⟨rfl, hothers⟩ := List.cons_eq_cons.mp h
      obtain ⟨taken, rest, rfl, htaken, hrest⟩ := ih hothers
      refine ⟨first ++ Byte.lf :: taken, rest, by simp, ?_, hrest⟩
      rw [lines, linesFrom_append hfirst, htaken]
    · -- Without a line feed there is no other line.
      have hone := lines_of_notMem hlf
      rw [h] at hone
      split at hone
      · cases hone
      · obtain ⟨-, hnil⟩ := List.cons_eq_cons.mp hone
        obtain ⟨rfl, rfl⟩ := List.append_eq_nil_iff.mp hnil
        refine ⟨bytes, [], by simp, ?_, rfl⟩
        rw [h, List.append_nil]

/-- **The count of lines, and the lines that errors name.** After any number of calls, whether they
failed or not, a reader has gone over the lines of some bytes in front of its input, and counts
those of them that are text; that is the number of all of them just if all are text. If the next
call fails, nothing was wrong with the lines that it went over but the last, and that one is
malformed. The error bears the number which that line has in the input, less the number of lines
that were gone over before and are not text. -/
theorem count_of_calls (bytes : Bytes) (calls : Nat) :
    let r := (ofBytes bytes).after calls
    ∃ taken rest, bytes = taken ++ rest ∧ lines bytes = lines taken ++ lines rest ∧
      r.unread = lines rest ∧ r.count = (lines taken).countP isText ∧
      (r.count = (lines taken).length ↔ ∀ line ∈ lines taken, isText line = true) ∧
      ∀ e r' log, r.next = (.error e, r', log) →
        ∃ passed line isNext number, lines rest = passed ++ line :: r'.unread ∧
          Sound true passed isNext ∧ Malformed isNext number line e ∧
          number + (lines taken).countP (! isText ·) =
            (lines taken).length + passed.length + 1 := by
  intro r
  obtain ⟨front, hfront⟩ := (ofBytes bytes).consumes_after calls
  obtain ⟨taken, rest, rfl, rfl, hrest⟩ := exists_append_of_lines hfront.unread
  have hcount : r.count = (lines taken).countP isText := hfront.count.trans (Nat.zero_add _)
  refine ⟨taken, rest, rfl, ?_, hrest.symm, hcount, ?_, fun e r' log hnext => ?_⟩
  · rw [hrest]
    exact hfront.unread
  · rw [hcount]
    exact List.countP_eq_length
  · have hspec := r.next_spec
    rw [hnext] at hspec
    cases hspec with
    | @malformed passed line isNext _ hpassed hsound hline =>
      refine ⟨passed, line, isNext, _, ?_, hsound, hline, ?_⟩
      · rw [hrest, hpassed.unread, List.append_assoc, List.singleton_append]
      · have hnot : (lines taken).countP (! isText ·) =
            (lines taken).countP fun line => decide ¬ isText line = true :=
          List.countP_congr fun line _ => by simp
        rw [hcount, List.length_eq_countP_add_countP isText (l := lines taken), hnot]
        omega
    | broken hpassed _ _ hfault =>
      have hnone : (ofBytes (taken ++ rest)).failure = none := rfl
      rw [hfront.failure, hpassed.failure, hfault] at hnone
      cases hnone

/-- A line that is not UTF-8, and behind it a line that is no JSON. -/
def twoBadLines : Bytes := 0xff :: Byte.lf :: Bytes.ascii "\x7bbad\x7d\n"

/-- **A line that is not counted**: the first call fails at the first of two lines and has gone over
it, but the count stays at zero, and the next error names the first line for what is wrong with the
second one. -/
theorem count_behind_uncounted :
    let r := (ofBytes twoBadLines).after 1
    (lines twoBadLines).length = 2 ∧ r.unread = (lines twoBadLines).drop 1 ∧ r.count = 0 ∧
      r.next.1 = .error (.line 1 "\x7bbad\x7d" ⟨.nameExpected, 3⟩) := by
  decide +kernel

end Reader

end HttpReplay
