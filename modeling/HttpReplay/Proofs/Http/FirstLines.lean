import HttpReplay.Proofs.Http.Grammar
import HttpReplay.Proofs.Http.Messages
import HttpReplay.Proofs.Text.Latin

/-!
# First lines by both sets of rules

The first line of a request is read by the strict rules and, if they refuse the head, once more by
the lenient ones. What is behind the line decides which of the two readings counts. Both take the
line apart at the same places, so they agree in the method and in the version. They part in the
target: the strict rules take it for UTF-8 and the lenient ones byte for byte, which is the same for
ASCII only.

* `HttpReplay.Http.requestLine?_of_requestLine` – a line that the strict rules read is one by the
  lenient rules, with the same words;
* `HttpReplay.Http.words_of_anyRequestHead` – what the first line of a head says, by whichever rules
  it was read;
* `HttpReplay.Bytes.text?_eq_latin1_iff` – where the two ways of taking the target agree.
-/

namespace HttpReplay

/-! ### Where the two texts of bytes agree -/

namespace Bytes

theorem ofText_of_text? {bytes : Bytes} {text : String} (h : text? bytes = some text) :
    ofText text = bytes := by
  rw [text?, String.fromUTF8?] at h
  split at h
  · cases h
    rfl
  · cases h

/-- Characters whose UTF-8 form has no more bytes than there are characters are all of ASCII. -/
theorem lt_of_length_flatMap_le {cs : List Char}
    (h : (cs.flatMap String.utf8EncodeChar).length ≤ cs.length) : ∀ c ∈ cs, c.toNat < 128 := by
  have hone : ∀ c : Char, 1 ≤ (String.utf8EncodeChar c).length := fun c => by
    rw [String.length_utf8EncodeChar]
    exact c.utf8Size_pos
  have hmany : ∀ cs : List Char, cs.length ≤ (cs.flatMap String.utf8EncodeChar).length := by
    intro cs
    induction cs with
    | nil => exact Nat.le_refl 0
    | cons c cs ih =>
      have := hone c
      rw [List.flatMap_cons, List.length_append, List.length_cons]
      omega
  induction cs with
  | nil => simp
  | cons c cs ih =>
    have := hone c
    have := hmany cs
    rw [List.flatMap_cons, List.length_append, List.length_cons] at h
    refine List.forall_mem_cons.mpr ⟨?_, ih (by omega)⟩
    have hsize : c.utf8Size = 1 := by
      rw [← String.length_utf8EncodeChar]
      omega
    exact Nat.lt_succ_of_le (Char.utf8Size_eq_one_iff.mp hsize)

/-- **Only ASCII is read the same both ways.** -/
theorem text?_eq_latin1_iff {bytes : Bytes} :
    text? bytes = some (latin1 bytes) ↔ ∀ b ∈ bytes, b < 128 := by
  refine ⟨fun h b hb => ?_, text?_of_forall⟩
  have hbytes := ofText_of_text? h
  rw [latin1, ofText_ofList] at hbytes
  have hall := @lt_of_length_flatMap_le (bytes.map fun b => Char.ofNat b.toNat)
    (by rw [hbytes, List.length_map])
  have hlt := hall _ (List.mem_map_of_mem hb)
  rw [toNat_ofNat_of_byte] at hlt
  exact UInt8.lt_iff_toNat_lt.mpr hlt

end Bytes

namespace Http

open Scan

/-! ### Words of a line -/

/-- A scan of a whole line does not depend on what is behind the line. -/
theorem WholeLine.done_of_done {α : Type} {f : Bytes → Scan α} (hw : WholeLine f) (hs : Steady f)
    {line rest : Bytes} {a : α} (h : f (line ++ Byte.lf :: rest) = .done a rest)
    (later : Bytes) : f (line ++ Byte.lf :: later) = .done a later := by
  have hsplit : ∀ r : Bytes, line ++ Byte.lf :: r = (line ++ [Byte.lf]) ++ r := by simp
  rw [hsplit] at h ⊢
  have hne : f (line ++ [Byte.lf]) ≠ .more := fun hm => by simpa using hw.1 _ hm
  rw [hs _ _ hne] at h ⊢
  cases hl : f (line ++ [Byte.lf]) with
  | more => exact absurd hl hne
  | refused why => simp [hl] at h
  | done b left =>
    rw [hl, extend_done, Scan.done.injEq] at h
    obtain ⟨rfl, hleft⟩ := h
    rw [extend_done, List.append_left_eq_self.mp hleft, List.nil_append]

theorem steady_requestLine : Steady requestLine :=
  steady_methodToken.bind fun _ => steady_target.bind fun _ => steady_httpVersion.bind fun _ =>
    (steady_lineEnd _).map _

namespace Lenient

theorem splitSpace?_append {word : Bytes} (h : Byte.sp ∉ word) (rest : Bytes) :
    splitSpace? (word ++ Byte.sp :: rest) = some (word, rest) := by
  have hall : ∀ b ∈ word, (b != Byte.sp) = true := fun b hb =>
    bne_iff_ne.mpr fun he => h (he ▸ hb)
  rw [splitSpace?, List.dropWhile_append_of_pos hall, List.takeWhile_append_of_pos hall]
  simp

/-- A line is what stands before its end. -/
theorem line?_of_lineEnd {line after rest : Bytes} {why : Refusal} {u : Unit}
    (hlf : Byte.lf ∉ line) (hcr : Byte.cr ∉ line)
    (h : lineEnd why after = .done u rest) : line? (line ++ after) = some (line, rest) := by
  rcases lineEnd_eq_done.mp h with rfl | rfl
  · exact line?_eq_some.mpr ⟨line, rfl, hlf, if_neg fun hl => hcr (List.mem_of_getLast? hl)⟩
  · refine line?_eq_some.mpr ⟨line ++ [Byte.cr], by simp, by simpa [lf_ne_cr] using hlf, ?_⟩
    rw [dropCr, if_pos (List.getLast?_concat ..), List.dropLast_concat]

/-- A line of three words of the right kinds is a request line. -/
theorem requestLine?_of_words {method target word : Bytes} {version : Nat} (hm : method ≠ [])
    (hmethod : ∀ b ∈ method, isToken b) (ht : target ≠ []) (htarget : ∀ b ∈ target, isTarget b)
    (hversion : version? word = some version) :
    requestLine? (method ++ Byte.sp :: (target ++ Byte.sp :: word)) =
      some (method, target, version) := by
  simp only [requestLine?, splitSpace?_append (notMem_of_forall isToken_sp hmethod),
    splitSpace?_append (notMem_of_forall isTarget_sp htarget), hversion, Option.bind_eq_bind,
    Option.bind_some]
  exact if_pos ⟨hm, List.all_eq_true.mpr hmethod, ht, List.all_eq_true.mpr htarget⟩

end Lenient

/-! ### What the strict rules find -/

/-- The name of a version is one by the lenient rules, and stands in one line. -/
theorem version?_versionWord {version : Nat} (h : version ≤ 1) :
    Lenient.version? (versionWord version) = some version ∧
      Byte.lf ∉ versionWord version ∧ Byte.cr ∉ versionWord version := by
  rcases Nat.le_one_iff_eq_zero_or_eq_one.mp h with rfl | rfl <;> decide

/-- **A first line that the strict rules read** is one by the lenient rules, with the same words. -/
theorem requestLine?_of_requestLine {bytes method rest : Bytes} {path : String} {version : Nat}
    (h : requestLine bytes = .done (method, path, version) rest) :
    ∃ line target, Lenient.line? bytes = some (line, rest) ∧
      Lenient.requestLine? line = some (method, target, version) ∧
      Bytes.text? target = some path := by
  obtain ⟨_, rfl, hline⟩ := requestLine_eq_done.mp h
  cases hline with
  | @words _ target ending _ _ hm hmethod ht htarget hpath hle hend =>
    obtain ⟨hword, hlf, hcr⟩ := version?_versionWord hle
    refine ⟨method ++ Byte.sp :: (target ++ Byte.sp :: versionWord version), target, ?_,
      Lenient.requestLine?_of_words hm hmethod ht htarget hword, hpath⟩
    have hbytes : method ++ Byte.sp :: (target ++ Byte.sp :: (versionWord version ++ ending)) ++
        rest = method ++ Byte.sp :: (target ++ Byte.sp :: versionWord version) ++
          (ending ++ rest) := by simp
    rw [hbytes]
    refine Lenient.line?_of_lineEnd ?_ ?_ (hend.lineEnd .newLine rest)
    · simp [notMem_of_forall isToken_lf hmethod, notMem_of_forall isTarget_lf htarget, hlf,
        (by decide : Byte.lf ≠ Byte.sp)]
    · simp [notMem_of_forall (by decide : isToken Byte.cr = false) hmethod,
        notMem_of_forall (by decide : isTarget Byte.cr = false) htarget, hcr,
        (by decide : Byte.cr ≠ Byte.sp)]

/-! ### What the first line of a head says -/

/-- Do the strict rules read the head? -/
def readsStrictly (bytes : Bytes) : Bool :=
  match requestHeadWidening bytes with
  | .done _ _ => true
  | _ => false

/-- The path that a target stands for: its text in UTF-8 by the strict rules, and byte for byte by
the lenient ones. -/
def pathOf (strict : Bool) (target : Bytes) : Option String :=
  if strict then Bytes.text? target else some (Bytes.latin1 target)

/-- No empty lines are skipped in front of a line that is not empty. -/
theorem emptyLines_eq_done {bytes line rest left : Bytes} {u : Unit}
    (hline : Lenient.line? bytes = some (line, rest)) (hne : line ≠ [])
    (h : emptyLines bytes = .done u left) : left = bytes := by
  rcases bytes with _ | ⟨b, bytes⟩
  · cases hline
  by_cases hlf : b = Byte.lf
  · simp only [Lenient.line?, Bytes.splitLine?, if_pos hlf, Option.map_some, Option.some.injEq,
      Prod.mk.injEq] at hline
    exact absurd hline.1.symm hne
  by_cases hcr : b = Byte.cr
  · subst hcr
    rcases bytes with _ | ⟨c, bytes⟩
    · cases h
    by_cases hc : c = Byte.lf
    · subst hc
      rw [show Lenient.line? (Byte.cr :: Byte.lf :: bytes) = some ([], bytes) from rfl] at hline
      cases hline
      exact absurd rfl hne
    · rw [emptyLines_lone_cr hc] at h
      cases h
  · rw [emptyLines_cons hlf hcr] at h
    cases h
    rfl

/-- **A head that the strict rules read** is a first line behind empty lines, and the field
lines. -/
theorem requestHeadWidening_eq_done {bytes left : Bytes} {head : RequestHead}
    (h : requestHeadWidening bytes = .done head left) :
    ∃ behind method rest, emptyLines bytes = .done () behind ∧
      requestLine behind = .done (method, head.path, head.version) rest ∧
      head.method = Bytes.latin1 method ∧ fieldLines mostFields rest = .done head.fields left := by
  rw [requestHeadWidening_eq, requestHead_eq] at h
  obtain ⟨_, behind, hempty, hread⟩ := bind_eq_done.mp h
  obtain ⟨⟨method, path, version⟩, rest, hfirst, hread'⟩ := bind_eq_done.mp hread
  obtain ⟨fields, hfields, rfl⟩ := map_eq_done.mp hread'
  exact ⟨behind, method, rest, hempty, hfirst, rfl, hfields⟩

/-- **What the first line of a head says**: the words of the line, by whichever rules the head was
read. -/
theorem words_of_anyRequestHead {bytes line rest left : Bytes} {head : RequestHead}
    (hline : Lenient.line? bytes = some (line, rest)) (hne : line ≠ [])
    (h : anyRequestHead bytes = .done head left) :
    ∃ method target, Lenient.requestLine? line = some (method, target, head.version) ∧
      head.method = Bytes.latin1 method ∧
      pathOf (readsStrictly bytes) target = some head.path := by
  cases hs : requestHeadWidening bytes with
  | done got after =>
    rw [anyRequestHead_of_ne_refused (by simp [hs]), hs] at h
    cases h
    obtain ⟨behind, method, rest', hempty, hfirst, hmethod, -⟩ := requestHeadWidening_eq_done hs
    rw [emptyLines_eq_done hline hne hempty] at hfirst
    obtain ⟨line', target, hline', hwords, hpath⟩ := requestLine?_of_requestLine hfirst
    rw [hline] at hline'
    cases hline'
    have hstrict : readsStrictly bytes = true := by rw [readsStrictly, hs]
    exact ⟨method, target, hwords, hmethod, by rw [pathOf, if_pos hstrict, hpath]⟩
  | more =>
    rw [anyRequestHead_of_ne_refused (by simp [hs]), hs] at h
    cases h
  | refused why =>
    rw [anyRequestHead_of_refused hs] at h
    split at h
    · rw [Lenient.requestHead_of_some hline] at h
      split at h
      · cases h
      · rename_i method target version hwords
        obtain ⟨fields, -, rfl⟩ := map_eq_done.mp h
        have hlenient : readsStrictly bytes ≠ true := by simp [readsStrictly, hs]
        exact ⟨method, target, hwords, rfl, by rw [pathOf, if_neg hlenient]⟩
    · cases h

end Http

end HttpReplay
