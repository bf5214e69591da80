import HttpReplay.Proofs.Http.Heads
import Mathlib.Data.List.TakeWhile

/-!
# Lenient heads that still arrive

The head of a request by both sets of rules together is steady and prompt
(`HttpReplay.Http.steady_anyRequestHead`, `HttpReplay.Http.prompt_anyRequestHead`).

The lenient rules read line by line, so for them alone this is a matter of where lines end. The
two sets of rules meet in one place only: when the strict rules refuse a head that they had been
waiting for, the lenient ones read it from its beginning. That they do not find the end of a head
in bytes on which the strict rules were still waiting is
`HttpReplay.Http.lenient_ne_done_of_more`; it holds because the strict rules never wait behind the
end of a line that is not empty for anything but a further line.
-/

namespace HttpReplay

namespace Bytes

/-! ### Lines -/

theorem splitLine?_eq_some {bytes line rest : Bytes} :
    splitLine? bytes = some (line, rest) ↔ bytes = line ++ Byte.lf :: rest ∧ Byte.lf ∉ line := by
  induction bytes generalizing line with
  | nil => simp [splitLine?]
  | cons b bytes ih =>
    by_cases hb : b = Byte.lf
    · subst hb
      rcases line with _ | ⟨c, line⟩
      · simp [splitLine?]
      · simp only [splitLine?, if_pos, Option.some.injEq, Prod.mk.injEq, List.cons_append,
          List.cons.injEq, List.mem_cons, not_or]
        constructor
        · rintro ⟨h, -⟩
          cases h
        · rintro ⟨⟨h, -⟩, hne, -⟩
          exact absurd h hne
    · rcases line with _ | ⟨c, line⟩
      · simp [splitLine?, hb]
      · simp only [splitLine?, if_neg hb, Option.map_eq_some_iff, Prod.mk.injEq, List.cons.injEq,
          List.cons_append, List.mem_cons, not_or]
        constructor
        · rintro ⟨⟨l, r⟩, h, ⟨rfl, rfl⟩, rfl⟩
          exact ⟨⟨rfl, (ih.mp h).1⟩, fun h => hb h.symm, (ih.mp h).2⟩
        · rintro ⟨⟨rfl, h⟩, -, hl⟩
          exact ⟨(line, rest), ih.mpr ⟨h, hl⟩, ⟨rfl, rfl⟩, rfl⟩

theorem splitLine?_eq_none {bytes : Bytes} : splitLine? bytes = none ↔ Byte.lf ∉ bytes := by
  induction bytes with
  | nil => simp [splitLine?]
  | cons b bytes ih =>
    by_cases hb : b = Byte.lf
    · simp [splitLine?, hb]
    · simp [splitLine?, hb, ih, Ne.symm hb]

end Bytes

namespace Http

open Scan

namespace Lenient

theorem line?_eq_some {bytes line rest : Bytes} :
    line? bytes = some (line, rest) ↔
      ∃ raw, bytes = raw ++ Byte.lf :: rest ∧ Byte.lf ∉ raw ∧ dropCr raw = line := by
  simp only [line?, Option.map_eq_some_iff, Prod.mk.injEq, Prod.exists]
  constructor
  · rintro ⟨raw, r, h, rfl, rfl⟩
    exact ⟨raw, (Bytes.splitLine?_eq_some.mp h).1, (Bytes.splitLine?_eq_some.mp h).2, rfl⟩
  · rintro ⟨raw, rfl, h, rfl⟩
    exact ⟨raw, rest, Bytes.splitLine?_eq_some.mpr ⟨rfl, h⟩, rfl, rfl⟩

theorem line?_eq_none {bytes : Bytes} : line? bytes = none ↔ Byte.lf ∉ bytes := by
  rw [line?, Option.map_eq_none_iff, Bytes.splitLine?_eq_none]

/-- A line that is there stays as it is. -/
theorem line?_append {bytes line rest : Bytes} (h : line? bytes = some (line, rest))
    (later : Bytes) : line? (bytes ++ later) = some (line, rest ++ later) := by
  obtain ⟨raw, rfl, hraw, rfl⟩ := line?_eq_some.mp h
  exact line?_eq_some.mpr ⟨raw, by simp, hraw, rfl⟩

/-- A line that is not there ends in what comes later. -/
theorem length_lt_of_line?_append {bytes later line rest : Bytes} (hn : line? bytes = none)
    (h : line? (bytes ++ later) = some (line, rest)) : rest.length < later.length := by
  obtain ⟨raw, he, -, -⟩ := line?_eq_some.mp h
  have hlf := line?_eq_none.mp hn
  rcases List.append_eq_append_iff.mp he with ⟨t, rfl, rfl⟩ | ⟨t, rfl, ht⟩
  · simp only [List.length_append, List.length_cons]
    omega
  · rcases t with _ | ⟨c, t⟩
    · rw [List.nil_append] at ht
      rw [← ht]
      exact Nat.lt_succ_self _
    · simp only [List.cons_append, List.cons.injEq] at ht
      exact absurd (by simp [ht.1]) hlf

/-! ### The lenient rules alone -/

theorem fieldLines_of_none {why : Refusal} {fields : List Field} {bytes : Bytes}
    (h : line? bytes = none) : fieldLines why fields bytes = .more := by
  rw [fieldLines]
  split
  · rfl
  · rename_i hl
    rw [h] at hl
    cases hl

/-- One line of a head, and what is read behind it. -/
theorem fieldLines_of_some {why : Refusal} {fields : List Field} {bytes line rest : Bytes}
    (h : line? bytes = some (line, rest)) :
    fieldLines why fields bytes =
      if line = [] then .done fields.reverse rest
      else
        match addLine? fields line with
        | none => .refused why
        | some fields => fieldLines why fields rest := by
  rw [fieldLines]
  split
  · rename_i hl
    rw [h] at hl
    cases hl
  · rename_i l r hl
    rw [h] at hl
    cases hl
    rfl

theorem steady_fieldLines (why : Refusal) (fields : List Field) :
    Steady (fieldLines why fields) := by
  intro bytes later
  fun_induction fieldLines why fields bytes with
  | case1 => exact fun hne => absurd rfl hne
  | case2 fields bytes rest h =>
    intro _
    rw [fieldLines_of_some (line?_append h later), if_pos rfl, extend_done]
  | case3 fields bytes line rest h hl ha =>
    intro _
    rw [fieldLines_of_some (line?_append h later), if_neg hl, ha, extend_refused]
  | case4 fields bytes line rest h hl more ha ih =>
    intro hne
    rw [fieldLines_of_some (line?_append h later), if_neg hl, ha]
    exact ih hne

theorem prompt_fieldLines (why : Refusal) (fields : List Field) :
    Prompt (fieldLines why fields) := by
  intro bytes later got left
  fun_induction fieldLines why fields bytes with
  | case1 fields bytes h =>
    intro _ hd
    cases hl : line? (bytes ++ later) with
    | none =>
      rw [fieldLines_of_none hl] at hd
      cases hd
    | some p =>
      obtain ⟨line, rest⟩ := p
      have hlt := length_lt_of_line?_append h hl
      rw [fieldLines_of_some hl] at hd
      split at hd
      · cases hd
        exact hlt
      · split at hd
        · cases hd
        · exact Nat.lt_of_le_of_lt (leaves_fieldLines _ _ _ got left hd) hlt
  | case2 =>
    intro hm
    cases hm
  | case3 =>
    intro hm
    cases hm
  | case4 fields bytes line rest h hl more ha ih =>
    intro hm hd
    rw [fieldLines_of_some (line?_append h later), if_neg hl, ha] at hd
    exact ih hm hd

/-! ### Request lines -/

theorem splitSpace?_eq_none {bytes : Bytes} (h : Byte.sp ∉ bytes) : splitSpace? bytes = none := by
  have hd : bytes.dropWhile (· != Byte.sp) = [] := by
    rw [List.dropWhile_eq_nil_iff]
    rintro b hb
    exact bne_iff_ne.mpr fun he => h (he ▸ hb)
  rw [splitSpace?, hd]

/-- A line whose first word is no token is no request line. -/
theorem requestLine?_eq_none {line : Bytes} (h : mayBeRequestLine line = false) :
    requestLine? line = none := by
  cases hs : splitSpace? line with
  | none => simp [requestLine?, hs]
  | some p =>
    obtain ⟨method, rest⟩ := p
    have hm : line.takeWhile (· != Byte.sp) = method := by
      unfold splitSpace? at hs
      split at hs
      · cases hs
      · cases hs
        rfl
    rw [mayBeRequestLine, hm] at h
    have hnot : ¬ ∀ b ∈ method, isToken b = true := fun ha => by
      simp [List.all_eq_true.mpr ha] at h
    simp only [requestLine?, hs]
    change ((splitSpace? rest).bind fun q => (version? q.2).bind fun v =>
      if method ≠ [] ∧ method.all isToken ∧ q.1 ≠ [] ∧ q.1.all isTarget then
        some (method, q.1, v) else none) = none
    cases splitSpace? rest with
    | none => rfl
    | some q =>
      rw [Option.bind_some]
      cases version? q.2 with
      | none => rfl
      | some v => exact if_neg fun hc => hnot (List.all_eq_true.mp hc.2.1)

/-- Bytes that cannot become a request line do not become one. -/
theorem mayBeRequestLine_append {bytes : Bytes} (h : mayBeRequestLine bytes = false)
    (later : Bytes) : mayBeRequestLine (bytes ++ later) = false := by
  simp only [mayBeRequestLine, List.all_eq_false] at h ⊢
  obtain ⟨b, hb, ht⟩ := h
  refine ⟨b, ?_, ht⟩
  rw [List.takeWhile_append]
  split
  · exact List.mem_append_left _ ((List.takeWhile_subset _) hb)
  · exact hb

theorem requestLine?_dropCr {raw : Bytes} (h : mayBeRequestLine raw = false) :
    requestLine? (dropCr raw) = none := by
  unfold dropCr
  split
  · rename_i hl
    obtain ⟨line, rfl⟩ := List.getLast?_eq_some_iff.mp hl
    rw [List.dropLast_concat]
    -- The carriage return is dropped from a first word only if there is no second one.
    by_cases hsp : Byte.sp ∈ line
    · refine requestLine?_eq_none ?_
      rw [← h, mayBeRequestLine, mayBeRequestLine, List.takeWhile_append, if_neg]
      intro hlen
      have := List.takeWhile_eq_self_iff.mp ((List.takeWhile_prefix _).eq_of_length hlen)
      exact absurd (this _ hsp) (by simp)
    · rw [requestLine?, splitSpace?_eq_none hsp]
      rfl
  · exact requestLine?_eq_none h

/-! ### Whole heads by the lenient rules -/

theorem requestHead_of_none {why : Refusal} {bytes : Bytes} (h : line? bytes = none) :
    requestHead why bytes = if mayBeRequestLine bytes then .more else .refused why := by
  rw [requestHead, h]

theorem requestHead_of_some {why : Refusal} {bytes line rest : Bytes}
    (h : line? bytes = some (line, rest)) :
    requestHead why bytes =
      match requestLine? line with
      | none => .refused why
      | some (method, target, version) => (fieldLines why [] rest).map fun fields =>
          ⟨Bytes.latin1 method, Bytes.latin1 target, version, fields⟩ := by
  rw [requestHead]
  split
  · rename_i hnone
    rw [h] at hnone
    cases hnone
  · rename_i line' rest' hsome
    rw [h] at hsome
    cases hsome
    rfl

theorem steady_requestHead (why : Refusal) : Steady (requestHead why) := by
  intro bytes later hne
  cases hl : line? bytes with
  | none =>
    rw [requestHead_of_none hl] at hne ⊢
    by_cases hm : mayBeRequestLine bytes = true
    · exact absurd (if_pos hm) hne
    rw [if_neg hm, extend_refused]
    have hm' := mayBeRequestLine_append (Bool.eq_false_iff.mpr hm) later
    cases hl' : line? (bytes ++ later) with
    | none => rw [requestHead_of_none hl', hm', if_neg (by simp)]
    | some p =>
      obtain ⟨line, rest⟩ := p
      obtain ⟨raw, he, hraw, rfl⟩ := line?_eq_some.mp hl'
      -- The line goes beyond the bytes, so its first word begins as theirs does.
      have hpre : bytes <+: raw := by
        refine List.prefix_of_prefix_length_le (List.prefix_append bytes later)
          (he ▸ List.prefix_append raw _) ?_
        have hlt := length_lt_of_line?_append hl hl'
        have := congrArg List.length he
        simp only [List.length_append, List.length_cons] at this
        omega
      obtain ⟨t, rfl⟩ := hpre
      have hnot := mayBeRequestLine_append (Bool.eq_false_iff.mpr hm) t
      rw [requestHead_of_some hl', requestLine?_dropCr hnot]
  | some p =>
    obtain ⟨line, rest⟩ := p
    rw [requestHead_of_some hl] at hne ⊢
    rw [requestHead_of_some (line?_append hl later)]
    split
    · rfl
    · rename_i method target version hr
      rw [hr] at hne
      exact (steady_fieldLines why []).map _ rest later hne

theorem prompt_requestHead (why : Refusal) : Prompt (requestHead why) := by
  intro bytes later head rest hm hd
  cases hl : line? bytes with
  | none =>
    cases hl' : line? (bytes ++ later) with
    | none =>
      rw [requestHead_of_none hl'] at hd
      split at hd <;> cases hd
    | some p =>
      obtain ⟨line, r⟩ := p
      have hlt := length_lt_of_line?_append hl hl'
      rw [requestHead_of_some hl'] at hd
      split at hd
      · cases hd
      · exact Nat.lt_of_le_of_lt ((leaves_fieldLines why [] r).map _ head rest hd) hlt
  | some p =>
    obtain ⟨line, r⟩ := p
    rw [requestHead_of_some hl] at hm
    rw [requestHead_of_some (line?_append hl later)] at hd
    split at hm
    · cases hm
    · rename_i method target version hr
      rw [hr] at hd
      exact (prompt_fieldLines why []).map (steady_fieldLines why []) _ r later head rest hm hd

end Lenient

/-! ### Where the strict rules wait -/

/-- A scan that stays on one line: it takes no line feed, and no line feed stands in the bytes
on which it waits. -/
def WithinLine {α : Type} (f : Bytes → Scan α) : Prop :=
  (∀ bytes, f bytes = .more → Byte.lf ∉ bytes) ∧
    ∀ bytes a rest, f bytes = .done a rest → ∃ taken, bytes = taken ++ rest ∧ Byte.lf ∉ taken

/-- A scan that takes a whole line with its end: no line feed stands in the bytes on which it
waits. -/
def WholeLine {α : Type} (f : Bytes → Scan α) : Prop :=
  (∀ bytes, f bytes = .more → Byte.lf ∉ bytes) ∧
    ∀ bytes a rest, f bytes = .done a rest →
      ∃ line, bytes = line ++ Byte.lf :: rest ∧ Byte.lf ∉ line

section Lines

variable {α β : Type} {f : Bytes → Scan α} {g : α → Bytes → Scan β}

/-- **A scan behind one that stays on its line** takes what both take: what stands on the line, and
what the second takes last. -/
theorem WithinLine.bind_last (hf : WithinLine f) (last : Bytes)
    (hmore : ∀ a bytes, g a bytes = .more → Byte.lf ∉ bytes)
    (hdone : ∀ a bytes b rest, g a bytes = .done b rest →
      ∃ taken, bytes = taken ++ (last ++ rest) ∧ Byte.lf ∉ taken) :
    (∀ bytes, (f bytes).bind g = .more → Byte.lf ∉ bytes) ∧
      ∀ bytes b rest, (f bytes).bind g = .done b rest →
        ∃ taken, bytes = taken ++ (last ++ rest) ∧ Byte.lf ∉ taken := by
  refine ⟨fun bytes hm => ?_, fun bytes b rest hd => ?_⟩
  · cases hb : f bytes with
    | done a r =>
      obtain ⟨taken, rfl, ht⟩ := hf.2 bytes a r hb
      simp only [hb, bind_done] at hm
      simpa [ht] using hmore a r hm
    | more => exact hf.1 bytes hb
    | refused why => simp [hb] at hm
  · cases hb : f bytes with
    | done a r =>
      obtain ⟨taken, rfl, ht⟩ := hf.2 bytes a r hb
      simp only [hb, bind_done] at hd
      obtain ⟨more, rfl, hm⟩ := hdone a r b rest hd
      exact ⟨taken ++ more, by simp, by simp [ht, hm]⟩
    | more => simp [hb] at hd
    | refused why => simp [hb] at hd

theorem WithinLine.bind (hf : WithinLine f) (hg : ∀ a, WithinLine (g a)) :
    WithinLine fun bytes => (f bytes).bind g :=
  hf.bind_last [] (fun a => (hg a).1) fun a => (hg a).2

theorem WithinLine.bind_wholeLine (hf : WithinLine f) (hg : ∀ a, WholeLine (g a)) :
    WholeLine fun bytes => (f bytes).bind g :=
  hf.bind_last [Byte.lf] (fun a => (hg a).1) fun a => (hg a).2

theorem withinLine_done (a : α) : WithinLine (Scan.done a) := by
  constructor
  · intro _ hm
    cases hm
  · intro bytes b rest hd
    cases hd
    exact ⟨[], rfl, List.not_mem_nil⟩

theorem withinLine_refused (why : Refusal) :
    WithinLine fun _ => (Scan.refused why : Scan α) := by
  constructor
  · intro _ hm
    cases hm
  · intro _ _ _ hd
    cases hd

theorem WithinLine.ensure (hf : WithinLine f) (p : α → Bool) (why : Refusal) :
    WithinLine fun bytes => (f bytes).ensure p why := by
  simp only [ensure_eq_bind]
  refine hf.bind fun a => ?_
  cases p a
  · exact withinLine_refused why
  · exact withinLine_done a

theorem WholeLine.map (hf : WholeLine f) (c : α → β) :
    WholeLine fun bytes => (f bytes).map c := by
  refine ⟨fun bytes hm => hf.1 bytes (map_eq_more.mp hm), fun bytes b rest hd => ?_⟩
  obtain ⟨a, hd, -⟩ := map_eq_done.mp hd
  exact hf.2 bytes a rest hd

end Lines

theorem withinLine_upTo {stop : UInt8} {p : UInt8 → Bool} {why : Refusal} (hs : stop ≠ Byte.lf)
    (hp : p Byte.lf = false) : WithinLine (upTo stop p why) := by
  have hlf : ∀ name : Bytes, (∀ b ∈ name, b ≠ stop ∧ p b) → Byte.lf ∉ name := by
    intro name hn hmem
    exact absurd (hn _ hmem).2 (by simp [hp])
  refine ⟨fun bytes hm => hlf bytes (upTo_eq_more.mp hm), fun bytes name rest hd => ?_⟩
  obtain ⟨rfl, hn⟩ := upTo_eq_done.mp hd
  exact ⟨name ++ [stop], by simp, by simp [hlf name hn, Ne.symm hs]⟩

theorem withinLine_methodToken : WithinLine methodToken :=
  (withinLine_upTo (by decide) isToken_lf).ensure _ _

theorem withinLine_target : WithinLine target := by
  refine ((withinLine_upTo (by decide) isTarget_lf).ensure _ _).bind fun name => ?_
  cases Bytes.text? name with
  | none => exact withinLine_refused _
  | some text => exact withinLine_done text

theorem withinLine_httpVersion : WithinLine httpVersion := by
  refine ⟨fun bytes hm hlf => ?_, fun bytes v rest hd => ?_⟩
  · exact absurd ((httpVersion_eq_more hm).2.subset hlf) (by decide)
  · unfold httpVersion at hd
    dsimp only at hd
    have hword : ∀ w, bytes.take 8 = w → Byte.lf ∉ w → bytes.drop 8 = rest →
        ∃ taken, bytes = taken ++ rest ∧ Byte.lf ∉ taken := by
      rintro w rfl hw rfl
      exact ⟨bytes.take 8, (List.take_append_drop 8 bytes).symm, hw⟩
    split at hd
    · rename_i hw
      cases hd
      exact hword _ hw (by decide) rfl
    split at hd
    · rename_i hw
      cases hd
      exact hword _ hw (by decide) rfl
    split at hd <;> cases hd

theorem wholeLine_lineEnd (why : Refusal) : WholeLine (lineEnd why) := by
  refine ⟨fun bytes hm => ?_, fun bytes u rest hd => ?_⟩
  · rcases lineEnd_eq_more.mp hm with rfl | rfl <;> decide
  · rcases lineEnd_eq_done.mp hd with rfl | rfl
    · exact ⟨[], rfl, List.not_mem_nil⟩
    · exact ⟨[Byte.cr], rfl, by decide⟩

theorem wholeLine_restOfLine {p : UInt8 → Bool} (hp : InLine p) (why : Refusal) :
    WholeLine (restOfLine p why) := by
  have hlf : ∀ text : Bytes, (∀ b ∈ text, p b) → Byte.lf ∉ text := by
    intro text ht hmem
    exact absurd (ht _ hmem) (by simp [hp.1])
  refine ⟨fun bytes hm => ?_, fun bytes text rest hd => ?_⟩
  · obtain ⟨text, ht, rfl | rfl⟩ := restOfLine_eq_more hm
    · exact hlf _ ht
    · simpa [lf_ne_cr] using hlf text ht
  · obtain ⟨ht, rfl | rfl⟩ := (restOfLine_eq_done hp).mp hd
    · exact ⟨text, rfl, hlf text ht⟩
    · exact ⟨text ++ [Byte.cr], by simp, by simpa [lf_ne_cr] using hlf text ht⟩

theorem wholeLine_fieldLine : WholeLine fieldLine :=
  ((withinLine_upTo (by decide) isToken_lf).ensure _ _).bind_wholeLine fun _ =>
    (wholeLine_restOfLine inLine_isFieldText _).map _

theorem wholeLine_requestLine : WholeLine requestLine :=
  withinLine_methodToken.bind_wholeLine fun _ => withinLine_target.bind_wholeLine fun _ =>
    withinLine_httpVersion.bind_wholeLine fun _ => (wholeLine_lineEnd _).map _

namespace Lenient

/-- A line is empty without the carriage return at its end only if it is nothing else. -/
theorem dropCr_cons_ne_nil {b : UInt8} (hb : b ≠ Byte.cr) (line : Bytes) :
    dropCr (b :: line) ≠ [] := by
  unfold dropCr
  split
  · rename_i hl
    rcases line with _ | ⟨c, line⟩
    · rw [List.getLast?_singleton, Option.some.injEq] at hl
      exact absurd hl hb
    · simp
  · simp

theorem fieldLines_ne_done_of_more {room : Nat} {bytes : Bytes}
    (hm : Http.fieldLines room bytes = .more) (why : Refusal) (fields got : List Field)
    (rest : Bytes) : fieldLines why fields bytes ≠ .done got rest := by
  induction room using Nat.strongRecOn generalizing bytes fields with
  | _ room ih =>
    -- Where the strict rules wait within a line, the lenient rules wait for the end of the line.
    have hwait : ∀ l : Bytes, Byte.lf ∉ l → fieldLines why fields l ≠ .done got rest := by
      intro l hl
      rw [fieldLines_of_none (line?_eq_none.mpr hl)]
      intro h
      cases h
    rcases bytes with _ | ⟨b, bytes⟩
    · exact hwait [] List.not_mem_nil
    by_cases hb : b = Byte.lf ∨ b = Byte.cr
    · rw [fieldLines_of_lineEnd hb] at hm
      exact hwait _ ((wholeLine_lineEnd _).1 _ (map_eq_more.mp hm))
    · rw [fieldLines_of_field hb] at hm
      cases hf : fieldLine (b :: bytes) with
      | more => exact hwait _ (wholeLine_fieldLine.1 _ hf)
      | refused why => simp [hf] at hm
      | done field r =>
        obtain ⟨line, he, hline⟩ := wholeLine_fieldLine.2 _ field r hf
        rcases line with _ | ⟨c, line⟩
        · simp only [List.nil_append, List.cons.injEq] at he
          exact absurd (Or.inl he.1) hb
        obtain rfl : b = c := by
          simp only [List.cons_append, List.cons.injEq] at he
          exact he.1
        rw [he, fieldLines_of_some (line?_eq_some.mpr ⟨b :: line, rfl, hline, rfl⟩),
          if_neg (dropCr_cons_ne_nil (fun h => hb (Or.inr h)) line)]
        split
        · intro h
          cases h
        · rename_i more _
          rw [hf, bind_done] at hm
          cases room with
          | zero => cases hm
          | succ room => exact ih room (Nat.lt_succ_self room) (map_eq_more.mp hm) more

/-- Empty lines in front of a head are none of the lenient rules. -/
theorem requestHead_of_nil {why : Refusal} {bytes rest : Bytes}
    (h : line? bytes = some ([], rest)) : requestHead why bytes = .refused why := by
  rw [requestHead_of_some h]
  rfl

end Lenient

/-- **The lenient rules find no end of a head** in bytes on which the strict rules still wait. -/
theorem lenient_ne_done_of_more {room : Nat} {bytes : Bytes}
    (hm : requestHead room bytes = .more) (why : Refusal) (head : RequestHead) (rest : Bytes) :
    Lenient.requestHead why bytes ≠ .done head rest := by
  have hwait : Byte.lf ∉ bytes → Lenient.requestHead why bytes ≠ .done head rest := by
    intro hl
    rw [Lenient.requestHead_of_none (Lenient.line?_eq_none.mpr hl)]
    split <;> simp
  -- Empty lines in front are skipped by the strict rules only.
  have hempty : ∀ r, Lenient.line? bytes = some ([], r) →
      Lenient.requestHead why bytes ≠ .done head rest := by
    intro r hr
    rw [Lenient.requestHead_of_nil hr]
    intro h
    cases h
  rcases bytes with _ | ⟨b, bytes⟩
  · exact hwait List.not_mem_nil
  by_cases hlf : b = Byte.lf
  · exact hempty bytes (by simp [Lenient.line?, Bytes.splitLine?, hlf, Lenient.dropCr])
  by_cases hcr : b = Byte.cr
  · subst hcr
    rcases bytes with _ | ⟨c, bytes⟩
    · exact hwait (by decide)
    by_cases hc : c = Byte.lf
    · exact hempty bytes
        (by simp [Lenient.line?, Bytes.splitLine?, hc, lf_ne_cr.symm, Lenient.dropCr])
    · rw [requestHead_eq, emptyLines_lone_cr hc] at hm
      cases hm
  rw [requestHead_eq, emptyLines_cons hlf hcr, bind_done] at hm
  cases hl : requestLine (b :: bytes) with
  | more => exact hwait (wholeLine_requestLine.1 _ hl)
  | refused why => simp [hl] at hm
  | done first r =>
    obtain ⟨line, he, hline⟩ := wholeLine_requestLine.2 _ first r hl
    rw [hl, bind_done] at hm
    rw [he, Lenient.requestHead_of_some (Lenient.line?_eq_some.mpr ⟨line, rfl, hline, rfl⟩)]
    split
    · intro h
      cases h
    · intro hd
      obtain ⟨got, hd, -⟩ := map_eq_done.mp hd
      exact Lenient.fieldLines_ne_done_of_more (map_eq_more.mp hm) why [] got rest hd

/-! ### Both sets of rules -/

theorem anyRequestHead_of_refused {bytes : Bytes} {why : Refusal}
    (h : requestHeadWidening bytes = .refused why) :
    anyRequestHead bytes =
      if why.allowsLenience then Lenient.requestHead why bytes else .refused why := by
  rw [anyRequestHead, h]

theorem anyRequestHead_of_ne_refused {bytes : Bytes}
    (h : ∀ why, requestHeadWidening bytes ≠ .refused why) :
    anyRequestHead bytes = requestHeadWidening bytes := by
  unfold anyRequestHead
  split
  · rename_i why hw
    exact absurd hw (h why)
  · rfl

/-- **A head that is there or refused** does not depend on what comes behind it. -/
theorem steady_anyRequestHead : Steady anyRequestHead := by
  intro bytes later hne
  cases hs : requestHeadWidening bytes with
  | done head rest =>
    have hs' := steady_requestHeadWidening.done hs later
    rw [anyRequestHead_of_ne_refused (by simp [hs']), anyRequestHead_of_ne_refused (by simp [hs]),
      hs, hs', extend_done]
  | more =>
    rw [anyRequestHead_of_ne_refused (by simp [hs]), hs] at hne
    exact absurd rfl hne
  | refused why =>
    have hs' := steady_requestHeadWidening.refused hs later
    rw [anyRequestHead_of_refused hs] at hne ⊢
    rw [anyRequestHead_of_refused hs']
    split
    · rename_i hw
      rw [if_pos hw] at hne
      exact Lenient.steady_requestHead why bytes later hne
    · rfl

/-- **A head is found with its last byte.** -/
theorem prompt_anyRequestHead : Prompt anyRequestHead := by
  intro bytes later head rest hm hd
  cases hs : requestHeadWidening bytes with
  | done head' rest' =>
    rw [anyRequestHead_of_ne_refused (by simp [hs]), hs] at hm
    cases hm
  | refused why =>
    rw [anyRequestHead_of_refused hs] at hm
    rw [anyRequestHead_of_refused (steady_requestHeadWidening.refused hs later)] at hd
    split at hm
    · rename_i hw
      rw [if_pos hw] at hd
      exact Lenient.prompt_requestHead why bytes later head rest hm hd
    · cases hm
  | more =>
    cases hs' : requestHeadWidening (bytes ++ later) with
    | done head' rest' =>
      rw [anyRequestHead_of_ne_refused (by simp [hs']), hs'] at hd
      cases hd
      exact prompt_requestHeadWidening bytes later head rest hs hs'
    | more =>
      rw [anyRequestHead_of_ne_refused (by simp [hs']), hs'] at hd
      cases hd
    | refused why =>
      rw [anyRequestHead_of_refused hs'] at hd
      split at hd
      · -- The lenient rules take over with the bytes that have just come.
        cases hl : Lenient.requestHead why bytes with
        | more => exact Lenient.prompt_requestHead why bytes later head rest hl hd
        | refused why' =>
          rw [(Lenient.steady_requestHead why).refused hl later] at hd
          cases hd
        | done head' rest' =>
          rw [requestHeadWidening_eq] at hs
          exact absurd hl (lenient_ne_done_of_more hs why head' rest')
      · cases hd

end Http

end HttpReplay
