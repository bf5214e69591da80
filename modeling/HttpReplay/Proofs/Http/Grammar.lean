import HttpReplay.Http.Grammar
import HttpReplay.Proofs.Http.Heads

/-!
# Heads by their grammar

The strict rules read the heads of the grammar and no others. A head that there is room for is read
as what it says, whatever stands behind it; one with more field lines than there is room for is
refused, for want of room and for no other reason.

Every part of a head has its own equivalence, of what the reader finds and what the bytes look like,
and a part that is made of others takes it from theirs.

* `HttpReplay.Http.requestLine_eq_done` is about first lines, `HttpReplay.Http.fieldLine_eq_done`
  about single field lines;
* `HttpReplay.Http.IsFieldLines.read` and `HttpReplay.Http.IsRequestHead.read` are what a reader
  makes of field lines and of heads, whatever room it has;
* `HttpReplay.Http.fieldLines_eq_done` and `HttpReplay.Http.requestHead_eq_done` say that these are
  all that it reads.
-/

namespace HttpReplay.Http

open Scan

/-! ### Scans of scans -/

theorem bind_eq_done {α β : Type} {s : Scan α} {f : α → Bytes → Scan β} {b : β} {rest : Bytes} :
    s.bind f = .done b rest ↔ ∃ a left, s = .done a left ∧ f a left = .done b rest := by
  cases s <;> simp

theorem ensure_eq_done {α : Type} {s : Scan α} {p : α → Bool} {why : Refusal} {a : α}
    {rest : Bytes} : s.ensure p why = .done a rest ↔ s = .done a rest ∧ p a := by
  rw [ensure_eq_bind, bind_eq_done]
  constructor
  · rintro ⟨b, left, rfl, h⟩
    split at h
    · rename_i hb
      cases h
      exact ⟨rfl, hb⟩
    · cases h
  · rintro ⟨rfl, ha⟩
    exact ⟨a, rest, rfl, if_pos ha⟩

/-! ### Words and line ends -/

section Words

variable {why : Refusal} {bytes rest : Bytes}

/-- A byte that is none of a class stands in no word of that class. -/
theorem notMem_of_forall {b : UInt8} {p : UInt8 → Bool} {word : Bytes} (hp : p b = false)
    (hword : ∀ c ∈ word, p c) : b ∉ word :=
  fun hb => Bool.false_ne_true (hp.symm.trans (hword b hb))

/-- A word that must not be empty ends at the first byte that is none of its class. -/
theorem ensure_upTo_eq_done {stop : UInt8} {p : UInt8 → Bool} {why' : Refusal} {word : Bytes}
    (hstop : p stop = false) :
    (upTo stop p why bytes).ensure (· ≠ []) why' = .done word rest ↔
      bytes = word ++ stop :: rest ∧ word ≠ [] ∧ ∀ b ∈ word, p b := by
  rw [ensure_eq_done, upTo_eq_done, decide_eq_true_iff]
  constructor
  · rintro ⟨⟨hbytes, hword⟩, hne⟩
    exact ⟨hbytes, hne, fun b hb => (hword b hb).2⟩
  · rintro ⟨hbytes, hne, hword⟩
    have hstops := notMem_of_forall hstop hword
    exact ⟨⟨hbytes, fun b hb => ⟨fun he => hstops (he ▸ hb), hword b hb⟩⟩, hne⟩

theorem isToken_colon : isToken Byte.colon = false := by decide

theorem isToken_sp : isToken Byte.sp = false := by decide

theorem isTarget_sp : isTarget Byte.sp = false := by decide

theorem not_lineEnd_of_isToken {b : UInt8} (h : isToken b = true) :
    ¬ (b = Byte.lf ∨ b = Byte.cr) := by
  rintro (rfl | rfl)
  · exact absurd h (by decide)
  · exact absurd h (by decide)

theorem target_eq_done {path : String} :
    target bytes = .done path rest ↔
      ∃ name, bytes = name ++ Byte.sp :: rest ∧ name ≠ [] ∧ (∀ b ∈ name, isTarget b) ∧
        Bytes.text? name = some path := by
  rw [target, bind_eq_done]
  constructor
  · rintro ⟨name, left, hw, h⟩
    obtain ⟨hbytes, hne, hname⟩ := (ensure_upTo_eq_done isTarget_sp).mp hw
    split at h
    · rename_i text htext
      cases h
      exact ⟨name, hbytes, hne, hname, htext⟩
    · cases h
  · rintro ⟨name, hbytes, hne, hname, hpath⟩
    exact ⟨name, rest, (ensure_upTo_eq_done isTarget_sp).mpr ⟨hbytes, hne, hname⟩, by rw [hpath]⟩

theorem httpVersion_eq_done {version : Nat} :
    httpVersion bytes = .done version rest ↔
      version ≤ 1 ∧ bytes = versionWord version ++ rest := by
  constructor
  · intro h
    have hword : ∀ w, bytes.take 8 = w → bytes.drop 8 = rest → bytes = w ++ rest := by
      rintro w rfl rfl
      exact (List.take_append_drop 8 bytes).symm
    unfold httpVersion at h
    dsimp only at h
    split at h
    · rename_i hw
      cases h
      exact ⟨Nat.le_refl 1, hword _ hw rfl⟩
    split at h
    · rename_i hw
      cases h
      exact ⟨Nat.zero_le 1, hword _ hw rfl⟩
    split at h <;> cases h
  · rintro ⟨hle, rfl⟩
    rcases Nat.le_one_iff_eq_zero_or_eq_one.mp hle with rfl | rfl <;> rfl

theorem lineEnd_eq_done_iff {u : Unit} :
    lineEnd why bytes = .done u rest ↔ ∃ ending, IsLineEnd ending ∧ bytes = ending ++ rest := by
  rw [lineEnd_eq_done]
  constructor
  · rintro (rfl | rfl)
    · exact ⟨_, Or.inl rfl, rfl⟩
    · exact ⟨_, Or.inr rfl, rfl⟩
  · rintro ⟨ending, rfl | rfl, rfl⟩
    · exact Or.inl rfl
    · exact Or.inr rfl

theorem IsLineEnd.lineEnd {ending : Bytes} (h : IsLineEnd ending) (why : Refusal) (rest : Bytes) :
    lineEnd why (ending ++ rest) = .done () rest :=
  lineEnd_eq_done_iff.mpr ⟨ending, h, rfl⟩

end Words

/-! ### First lines -/

/-- **What is read as a first line** is the grammar's. -/
theorem requestLine_eq_done {bytes rest : Bytes} {words : Bytes × String × Nat} :
    requestLine bytes = .done words rest ↔
      ∃ line, bytes = line ++ rest ∧ IsRequestLine line words := by
  simp only [requestLine, bind_eq_done, map_eq_done, methodToken, ensure_upTo_eq_done isToken_sp,
    target_eq_done, httpVersion_eq_done, lineEnd_eq_done_iff]
  constructor
  · rintro ⟨method, _, ⟨rfl, hm, hmethod⟩, path, _, ⟨name, rfl, ht, htarget, hpath⟩, version, _,
      ⟨hle, rfl⟩, _, ⟨ending, hend, rfl⟩, rfl⟩
    exact ⟨_, by simp, .words hm hmethod ht htarget hpath hle hend⟩
  · rintro ⟨line, rfl, hline⟩
    cases hline with
    | @words method name ending path version hm hmethod ht htarget hpath hle hend =>
      exact ⟨method, name ++ Byte.sp :: (versionWord version ++ (ending ++ rest)),
        ⟨by simp, hm, hmethod⟩, path, versionWord version ++ (ending ++ rest),
        ⟨name, rfl, ht, htarget, hpath⟩, version, ending ++ rest, ⟨hle, rfl⟩, (),
        ⟨ending, hend, rfl⟩, rfl⟩

theorem IsRequestLine.read {line : Bytes} {words : Bytes × String × Nat}
    (h : IsRequestLine line words) (rest : Bytes) :
    requestLine (line ++ rest) = .done words rest :=
  requestLine_eq_done.mpr ⟨line, rfl, h⟩

/-- A first line begins with a byte of the method, so it is not an empty line. -/
theorem IsRequestLine.emptyLines {line : Bytes} {words : Bytes × String × Nat}
    (h : IsRequestLine line words) (rest : Bytes) :
    emptyLines (line ++ rest) = .done () (line ++ rest) := by
  cases h with
  | @words method _ _ _ _ hm hmethod =>
    obtain ⟨b, more, rfl⟩ := List.exists_cons_of_ne_nil hm
    have hb := not_lineEnd_of_isToken (hmethod b List.mem_cons_self)
    rw [not_or] at hb
    exact emptyLines_cons hb.1 hb.2 _

/-! ### Field lines -/

section FieldLines

variable {room : Nat} {bytes rest : Bytes} {fields : List Field}

/-- **A line that is read as a field** is its name, a colon, a text and a line end. -/
theorem fieldLine_eq_done {field : Field} :
    fieldLine bytes = .done field rest ↔
      ∃ name text ending, bytes = name ++ Byte.colon :: (text ++ (ending ++ rest)) ∧ name ≠ [] ∧
        (∀ b ∈ name, isToken b) ∧ (∀ b ∈ text, isFieldText b) ∧ IsLineEnd ending ∧
        field = ⟨name, Bytes.trimBy Byte.isBlank text⟩ := by
  simp only [fieldLine, bind_eq_done, map_eq_done, ensure_upTo_eq_done isToken_colon,
    restOfLine_eq_done inLine_isFieldText]
  constructor
  · rintro ⟨name, _, ⟨rfl, hne, hname⟩, text, ⟨htext, hend⟩, rfl⟩
    rcases hend with rfl | rfl
    · exact ⟨name, text, [Byte.lf], rfl, hne, hname, htext, Or.inl rfl, rfl⟩
    · exact ⟨name, text, [Byte.cr, Byte.lf], rfl, hne, hname, htext, Or.inr rfl, rfl⟩
  · rintro ⟨name, text, ending, rfl, hne, hname, htext, hend, rfl⟩
    refine ⟨name, _, ⟨rfl, hne, hname⟩, text, ⟨htext, ?_⟩, rfl⟩
    exact hend.imp (fun he => by rw [he]; rfl) fun he => by rw [he]; rfl

/-- The empty line ends the field lines. -/
theorem fieldLines_ending {ending : Bytes} (hend : IsLineEnd ending) (rest : Bytes) :
    fieldLines room (ending ++ rest) = .done [] rest := by
  obtain ⟨b, more, rfl, hb⟩ : ∃ b more, ending = b :: more ∧ (b = Byte.lf ∨ b = Byte.cr) := by
    rcases hend with rfl | rfl
    · exact ⟨_, _, rfl, Or.inl rfl⟩
    · exact ⟨_, _, rfl, Or.inr rfl⟩
  rw [List.cons_append, fieldLines_of_lineEnd hb, ← List.cons_append, hend.lineEnd, Scan.map]

/-- A field in front of the other field lines. -/
theorem fieldLines_line {name text ending : Bytes} (hne : name ≠ [])
    (hname : ∀ b ∈ name, isToken b) (htext : ∀ b ∈ text, isFieldText b) (hend : IsLineEnd ending)
    (rest : Bytes) :
    fieldLines room (name ++ Byte.colon :: (text ++ (ending ++ rest))) =
      fieldLinesAfter room ⟨name, Bytes.trimBy Byte.isBlank text⟩ rest := by
  have hread : fieldLine (name ++ Byte.colon :: (text ++ (ending ++ rest))) =
      .done ⟨name, Bytes.trimBy Byte.isBlank text⟩ rest :=
    fieldLine_eq_done.mpr ⟨name, text, ending, rfl, hne, hname, htext, hend, rfl⟩
  -- The line begins with a byte of the name, so it is not the empty line.
  obtain ⟨b, more, rfl⟩ := List.exists_cons_of_ne_nil hne
  have hb := hname b List.mem_cons_self
  rw [List.cons_append] at hread ⊢
  rw [fieldLines_of_field (not_lineEnd_of_isToken hb), hread, bind_done]

/-- **Field lines are read if there is room for them**, and else refused for want of it. -/
theorem IsFieldLines.read {lines : Bytes} (h : IsFieldLines lines fields) (room : Nat)
    (rest : Bytes) :
    fieldLines room (lines ++ rest) =
      if fields.length ≤ room then .done fields rest else .refused .tooManyHeaders := by
  induction h generalizing room with
  | empty hend => rw [fieldLines_ending hend, List.length_nil, if_pos (Nat.zero_le room)]
  | @line name text ending lines fields hne hname htext hend _ ih =>
    have happend : name ++ Byte.colon :: (text ++ (ending ++ lines)) ++ rest =
        name ++ Byte.colon :: (text ++ (ending ++ (lines ++ rest))) := by simp
    rw [happend, fieldLines_line hne hname htext hend, List.length_cons]
    cases room with
    | zero => rw [fieldLinesAfter, if_neg (Nat.not_succ_le_zero _)]
    | succ room =>
      rw [fieldLinesAfter, ih]
      by_cases hle : fields.length ≤ room
      · rw [if_pos hle, if_pos (Nat.succ_le_succ hle), Scan.map]
      · rw [if_neg hle, if_neg (mt Nat.le_of_succ_le_succ hle), Scan.map]

/-- Bytes that are read as field lines begin with some. -/
theorem exists_isFieldLines (h : fieldLines room bytes = .done fields rest) :
    ∃ lines, bytes = lines ++ rest ∧ IsFieldLines lines fields := by
  -- Every line takes some of the room.
  induction room using Nat.strongRecOn generalizing bytes fields with
  | _ room ih =>
    rcases bytes with _ | ⟨b, bytes⟩
    · rw [fieldLines_nil] at h
      cases h
    by_cases hb : b = Byte.lf ∨ b = Byte.cr
    · rw [fieldLines_of_lineEnd hb] at h
      obtain ⟨_, hread, rfl⟩ := map_eq_done.mp h
      obtain ⟨ending, hend, he⟩ := lineEnd_eq_done_iff.mp hread
      exact ⟨ending, he, .empty hend⟩
    · rw [fieldLines_of_field hb] at h
      obtain ⟨field, left, hfield, hafter⟩ := bind_eq_done.mp h
      obtain ⟨name, text, ending, he, hne, hname, htext, hend, rfl⟩ := fieldLine_eq_done.mp hfield
      rcases room with _ | room
      · cases hafter
      obtain ⟨fields, hmore, rfl⟩ := map_eq_done.mp hafter
      obtain ⟨lines, rfl, hlines⟩ := ih room (Nat.lt_succ_self room) hmore
      exact ⟨_, by rw [he]; simp, .line hne hname htext hend hlines⟩

/-- **What is read as field lines** is the grammar's, as far as there is room. -/
theorem fieldLines_eq_done :
    fieldLines room bytes = .done fields rest ↔
      ∃ lines, bytes = lines ++ rest ∧ IsFieldLines lines fields ∧ fields.length ≤ room := by
  constructor
  · intro h
    obtain ⟨lines, rfl, hlines⟩ := exists_isFieldLines h
    refine ⟨lines, rfl, hlines, ?_⟩
    by_contra hgt
    rw [hlines.read, if_neg hgt] at h
    cases h
  · rintro ⟨lines, rfl, hlines, hle⟩
    rw [hlines.read, if_pos hle]

end FieldLines

/-! ### Whole heads -/

section Heads

variable {room : Nat} {bytes rest head : Bytes} {parsed : RequestHead}

/-- An empty line in front of a head is skipped. -/
theorem requestHead_behind {ending : Bytes} (hend : IsLineEnd ending) (room : Nat)
    (bytes : Bytes) : requestHead room (ending ++ bytes) = requestHead room bytes := by
  rcases hend with rfl | rfl
  · rw [requestHead, List.singleton_append, emptyLines_lf, requestHead]
  · rw [requestHead, List.cons_append, List.singleton_append, emptyLines_crlf, requestHead]

/-- **A head is read if there is room for its field lines**, and else refused for want of it. -/
theorem IsRequestHead.read (h : IsRequestHead head parsed) (room : Nat) (rest : Bytes) :
    requestHead room (head ++ rest) =
      if parsed.fields.length ≤ room then .done parsed rest else .refused .tooManyHeaders := by
  induction h with
  | lines hfirst hlines =>
    rw [List.append_assoc, requestHead_eq, hfirst.emptyLines, bind_done, hfirst.read, bind_done,
      hlines.read]
    split <;> rfl
  | behind hend _ ih => rw [List.append_assoc, requestHead_behind hend, ih]

/-- Empty lines that are skipped may stand in front of any head. -/
theorem exists_emptyLines {left : Bytes} {u : Unit} (h : emptyLines bytes = .done u left) :
    ∃ front, bytes = front ++ left ∧
      ∀ head parsed, IsRequestHead head parsed → IsRequestHead (front ++ head) parsed := by
  fun_induction emptyLines bytes with
  | case1 => cases h
  | case2 rest ih =>
    obtain ⟨front, rfl, hfront⟩ := ih h
    have hend : IsLineEnd [Byte.lf] := Or.inl rfl
    exact ⟨[Byte.lf] ++ front, rfl, fun head parsed hhead => by
      rw [List.append_assoc]
      exact .behind hend (hfront head parsed hhead)⟩
  | case3 => cases h
  | case4 rest _ ih =>
    obtain ⟨front, rfl, hfront⟩ := ih h
    have hend : IsLineEnd [Byte.cr, Byte.lf] := Or.inr rfl
    exact ⟨[Byte.cr, Byte.lf] ++ front, rfl, fun head parsed hhead => by
      rw [List.append_assoc]
      exact .behind hend (hfront head parsed hhead)⟩
  | case5 => cases h
  | case6 =>
    cases h
    exact ⟨[], rfl, fun head parsed hhead => hhead⟩

/-- **What is read as a head** is the grammar's, as far as there is room for its field lines. -/
theorem requestHead_eq_done :
    requestHead room bytes = .done parsed rest ↔
      ∃ head, bytes = head ++ rest ∧ IsRequestHead head parsed ∧ parsed.fields.length ≤ room := by
  constructor
  · intro h
    rw [requestHead_eq] at h
    obtain ⟨_, behind, hempty, h⟩ := bind_eq_done.mp h
    obtain ⟨⟨method, path, version⟩, left, hfirst, h⟩ := bind_eq_done.mp h
    obtain ⟨fields, hfields, rfl⟩ := map_eq_done.mp h
    obtain ⟨front, rfl, hfront⟩ := exists_emptyLines hempty
    obtain ⟨first, rfl, hline⟩ := requestLine_eq_done.mp hfirst
    obtain ⟨lines, rfl, hlines, hle⟩ := fieldLines_eq_done.mp hfields
    exact ⟨front ++ (first ++ lines), by simp, hfront _ _ (.lines hline hlines), hle⟩
  · rintro ⟨head, rfl, hhead, hle⟩
    rw [hhead.read, if_pos hle]

end Heads

end HttpReplay.Http
