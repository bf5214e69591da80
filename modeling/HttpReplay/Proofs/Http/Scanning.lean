import HttpReplay.Http.Head
import Mathlib.Data.List.Basic

/-!
# Scans of bytes that still arrive

A scan is tried again whenever more bytes have arrived, so what it answers early has to agree
with what it would answer late. Two properties say so, and both are kept by running one scan
after another.

* A scan is **steady** (`HttpReplay.Http.Scan.Steady`) if what it has found, or refused, stays
  the same whatever arrives behind it. Only a scan that waits may change its mind.
* A scan is **prompt** (`HttpReplay.Http.Scan.Prompt`) if it waits only for bytes that it then
  takes: once the last byte of its part is there, the part is found.

A scan that looks at the byte behind its part without taking it is not prompt, but
`HttpReplay.Http.Scan.Peeking`; a prompt scan after it that takes the byte makes up for it.
-/

namespace HttpReplay.Http

namespace Scan

variable {α β : Type}

/-! ### The two properties -/

/-- The scan when more bytes stand behind those that it left. -/
def extend (later : Bytes) : Scan α → Scan α
  | .done a rest => .done a (rest ++ later)
  | .more => .more
  | .refused why => .refused why

@[simp] theorem extend_done (later : Bytes) (a : α) (rest : Bytes) :
    (Scan.done a rest).extend later = .done a (rest ++ later) := rfl

@[simp] theorem extend_refused (later : Bytes) (why : Refusal) :
    (Scan.refused why : Scan α).extend later = .refused why := rfl

@[simp] theorem bind_done (a : α) (rest : Bytes) (g : α → Bytes → Scan β) :
    (Scan.done a rest).bind g = g a rest := rfl

@[simp] theorem bind_more (g : α → Bytes → Scan β) : (Scan.more : Scan α).bind g = .more := rfl

@[simp] theorem bind_refused (why : Refusal) (g : α → Bytes → Scan β) :
    (Scan.refused why : Scan α).bind g = .refused why := rfl

@[simp] theorem map_eq_more {f : α → β} {s : Scan α} : s.map f = .more ↔ s = .more := by
  cases s <;> simp [Scan.map]

@[simp] theorem map_eq_done {f : α → β} {s : Scan α} {b : β} {rest : Bytes} :
    s.map f = .done b rest ↔ ∃ a, s = .done a rest ∧ f a = b := by
  cases s <;> simp [Scan.map, and_left_comm, and_comm]

theorem extend_map (f : α → β) (later : Bytes) (s : Scan α) :
    (s.map f).extend later = (s.extend later).map f := by
  cases s <;> rfl

theorem bind_assoc {γ : Type} (s : Scan α) (f : α → Bytes → Scan β) (g : β → Bytes → Scan γ) :
    (s.bind f).bind g = s.bind fun a rest => (f a rest).bind g := by
  cases s <;> rfl

theorem map_eq_bind (f : α → β) (s : Scan α) : s.map f = s.bind fun a rest => .done (f a) rest := by
  cases s <;> rfl

theorem ensure_eq_bind (p : α → Bool) (why : Refusal) (s : Scan α) :
    s.ensure p why = s.bind fun a rest => if p a then .done a rest else .refused why := by
  cases s <;> rfl

/-- **Steady**: what the scan has found or refused does not depend on what comes later. -/
def Steady (f : Bytes → Scan α) : Prop :=
  ∀ bytes later, f bytes ≠ .more → f (bytes ++ later) = (f bytes).extend later

/-- **Prompt**: a scan that waits takes a byte of what comes later, or more than one. -/
def Prompt (f : Bytes → Scan α) : Prop :=
  ∀ bytes later a rest, f bytes = .more → f (bytes ++ later) = .done a rest →
    rest.length < later.length

/-- A scan that waits takes everything that was there before. -/
def Peeking (f : Bytes → Scan α) : Prop :=
  ∀ bytes later a rest, f bytes = .more → f (bytes ++ later) = .done a rest →
    rest.length ≤ later.length

theorem Steady.done {f : Bytes → Scan α} (hf : Steady f) {bytes rest : Bytes} {a : α}
    (h : f bytes = .done a rest) (later : Bytes) :
    f (bytes ++ later) = .done a (rest ++ later) := by
  rw [hf bytes later (by simp [h]), h, extend_done]

theorem Steady.refused {f : Bytes → Scan α} (hf : Steady f) {bytes : Bytes} {why : Refusal}
    (h : f bytes = .refused why) (later : Bytes) : f (bytes ++ later) = .refused why := by
  rw [hf bytes later (by simp [h]), h, extend_refused]

/-! ### One scan after another -/

theorem Steady.bind {f : Bytes → Scan α} {g : α → Bytes → Scan β} (hf : Steady f)
    (hg : ∀ a, Steady (g a)) : Steady fun bytes => (f bytes).bind g := by
  intro bytes later hne
  cases hb : f bytes with
  | done a rest =>
    simp only [hb, bind_done] at hne
    simp only [hf.done hb, hb, bind_done]
    exact hg a rest later hne
  | more => simp [hb] at hne
  | refused why => simp only [hf.refused hb, hb, bind_refused, extend_refused]

theorem steady_done (c : α → β) (a : α) : Steady fun rest => Scan.done (c a) rest :=
  fun _ _ _ => rfl

theorem steady_refused (why : Refusal) : Steady fun _ => (Scan.refused why : Scan α) :=
  fun _ _ _ => rfl

theorem Steady.map {f : Bytes → Scan α} (hf : Steady f) (c : α → β) :
    Steady fun bytes => (f bytes).map c := by
  simp only [map_eq_bind]
  exact hf.bind fun a => steady_done c a

theorem Steady.ensure {f : Bytes → Scan α} (hf : Steady f) (p : α → Bool) (why : Refusal) :
    Steady fun bytes => (f bytes).ensure p why := by
  simp only [ensure_eq_bind]
  refine hf.bind fun a => ?_
  cases p a
  · exact steady_refused why
  · exact steady_done id a

/-- What a second scan waits for, it takes, whether it is the first or the second that waits. -/
theorem Prompt.bind {f : Bytes → Scan α} {g : α → Bytes → Scan β} (hs : Steady f) (hf : Prompt f)
    (hl : ∀ a rest, (g a rest).Leaves rest.length) (hg : ∀ a, Prompt (g a)) :
    Prompt fun bytes => (f bytes).bind g := by
  intro bytes later b rest hm hd
  cases hb : f bytes with
  | done a left =>
    simp only [hb, bind_done] at hm
    simp only [hs.done hb, bind_done] at hd
    exact hg a left later b rest hm hd
  | more =>
    cases hl' : f (bytes ++ later) with
    | done a left =>
      simp only [hl', bind_done] at hd
      have h₁ := hf bytes later a left hb hl'
      have h₂ := hl a left b rest hd
      omega
    | more => simp [hl'] at hd
    | refused why => simp [hl'] at hd
  | refused why => simp [hb] at hm

/-- A scan that only looks at the byte behind its part may be followed by one that takes it. -/
theorem Peeking.bind {f : Bytes → Scan α} {g : α → Bytes → Scan β} (hs : Steady f)
    (hf : Peeking f) (hl : ∀ a rest, (g a rest).Leaves (rest.length - 1))
    (hg : ∀ a, Prompt (g a)) : Prompt fun bytes => (f bytes).bind g := by
  intro bytes later b rest hm hd
  cases hb : f bytes with
  | done a left =>
    simp only [hb, bind_done] at hm
    simp only [hs.done hb, bind_done] at hd
    exact hg a left later b rest hm hd
  | more =>
    cases hl' : f (bytes ++ later) with
    | done a left =>
      simp only [hl', bind_done] at hd
      have h₁ := hf bytes later a left hb hl'
      have h₂ := hl a left b rest hd
      have hne : later ≠ [] := by
        rintro rfl
        rw [List.append_nil, hb] at hl'
        cases hl'
      have h₃ := List.length_pos_iff.mpr hne
      omega
    | more => simp [hl'] at hd
    | refused why => simp [hl'] at hd
  | refused why => simp [hb] at hm

/-- A scan that never waits is prompt. -/
theorem prompt_of_ne_more {f : Bytes → Scan α} (h : ∀ bytes, f bytes ≠ .more) : Prompt f :=
  fun bytes _ _ _ hm _ => absurd hm (h bytes)

theorem Prompt.map {f : Bytes → Scan α} (hs : Steady f) (hf : Prompt f) (c : α → β) :
    Prompt fun bytes => (f bytes).map c := by
  simp only [map_eq_bind]
  exact hf.bind hs (fun _ _ => leaves_done (Nat.le_refl _)) fun _ => prompt_of_ne_more (by simp)

theorem Prompt.ensure {f : Bytes → Scan α} (hs : Steady f) (hf : Prompt f) (p : α → Bool)
    (why : Refusal) : Prompt fun bytes => (f bytes).ensure p why := by
  simp only [ensure_eq_bind]
  refine hf.bind hs (fun a rest => ?_) fun a => ?_
  · cases p a
    · exact leaves_refused
    · exact leaves_done (Nat.le_refl _)
  · cases p a <;> exact prompt_of_ne_more (by simp)

end Scan

open Scan

/-! ### Scans of single parts -/

theorem steady_upTo (stop : UInt8) (p : UInt8 → Bool) (why : Refusal) :
    Steady (upTo stop p why) := by
  intro bytes later
  induction bytes with
  | nil => exact fun hne => absurd rfl hne
  | cons b rest ih =>
    simp only [upTo, List.cons_append]
    split
    · exact fun _ => rfl
    · split
      · intro hne
        rw [ih (mt map_eq_more.mpr hne), extend_map]
      · exact fun _ => rfl

theorem prompt_upTo (stop : UInt8) (p : UInt8 → Bool) (why : Refusal) :
    Prompt (upTo stop p why) := by
  intro bytes later
  induction bytes with
  | nil =>
    intro a rest _ hd
    have := leaves_upTo stop p why later a rest hd
    cases later with
    | nil => cases hd
    | cons c later => exact Nat.lt_succ_of_le this
  | cons b rest ih =>
    intro a left hm hd
    simp only [upTo, List.cons_append] at hm hd
    split at hm
    · cases hm
    · rename_i hb
      rw [if_neg hb] at hd
      split at hm
      · rename_i hp
        rw [if_pos hp] at hd
        obtain ⟨a', hd, -⟩ := map_eq_done.mp hd
        exact ih a' left (map_eq_more.mp hm) hd
      · cases hm

theorem steady_lineEnd (why : Refusal) : Steady (lineEnd why) := by
  intro bytes later
  rcases bytes with _ | ⟨b, _ | ⟨c, rest⟩⟩
  · simp [lineEnd]
  · simp only [lineEnd, List.cons_append, List.nil_append]
    split
    · simp
    · split <;> simp
  · simp only [lineEnd, List.cons_append]
    split
    · simp
    · split
      · split <;> simp
      · simp

theorem prompt_lineEnd (why : Refusal) : Prompt (lineEnd why) := by
  intro bytes later a left hm hd
  rcases bytes with _ | ⟨b, _ | ⟨c, rest⟩⟩
  · have := leaves_lineEnd why later a left hd
    cases later with
    | nil => cases hd
    | cons c later => exact Nat.lt_succ_of_le this
  · -- The carriage return is there and its line feed is not.
    simp only [lineEnd, List.cons_append, List.nil_append] at hm hd
    split at hm
    · cases hm
    · rename_i hb
      rw [if_neg hb] at hd
      split at hm
      · rename_i hc
        rw [if_pos hc] at hd
        rcases later with _ | ⟨c, later⟩
        · cases hd
        · simp only at hd
          split at hd
          · simp only [Scan.done.injEq, true_and] at hd
            simp [← hd]
          · cases hd
      · cases hm
  · simp only [lineEnd] at hm
    split at hm
    · cases hm
    · split at hm
      · split at hm <;> cases hm
      · cases hm

theorem steady_restOfLine (p : UInt8 → Bool) (why : Refusal) : Steady (restOfLine p why) := by
  intro bytes later
  induction bytes with
  | nil => exact fun hne => absurd rfl hne
  | cons b rest ih =>
    simp only [restOfLine, List.cons_append]
    split
    · intro hne
      rw [ih (mt map_eq_more.mpr hne), extend_map]
    · exact fun hne => (steady_lineEnd why).map (fun _ => []) (b :: rest) later hne

theorem prompt_restOfLine (p : UInt8 → Bool) (why : Refusal) : Prompt (restOfLine p why) := by
  intro bytes later
  induction bytes with
  | nil =>
    intro a rest _ hd
    have := leaves_restOfLine p why later a rest hd
    cases later with
    | nil => cases hd
    | cons c later => exact Nat.lt_succ_of_le this
  | cons b rest ih =>
    intro a left hm hd
    simp only [restOfLine, List.cons_append] at hm hd
    split at hm
    · rename_i hp
      rw [if_pos hp] at hd
      obtain ⟨a', hd, -⟩ := map_eq_done.mp hd
      exact ih a' left (map_eq_more.mp hm) hd
    · rename_i hp
      rw [if_neg hp] at hd
      have hprompt := (prompt_lineEnd why).map (steady_lineEnd why) fun _ => ([] : Bytes)
      exact hprompt (b :: rest) later a left hm hd

/-! ### What a scan finds

A part that is found says how the bytes begin, and a scan that waits says what all of them are. -/

theorem upTo_eq_done {stop : UInt8} {p : UInt8 → Bool} {why : Refusal} {bytes name rest : Bytes} :
    upTo stop p why bytes = .done name rest ↔
      bytes = name ++ stop :: rest ∧ ∀ b ∈ name, b ≠ stop ∧ p b := by
  induction bytes generalizing name with
  | nil => simp [upTo]
  | cons b bytes ih =>
    simp only [upTo]
    split
    · rename_i hb
      subst hb
      rcases name with _ | ⟨c, name⟩
      · simp
      · simp only [Scan.done.injEq, List.cons_append, List.cons.injEq, List.mem_cons]
        constructor
        · rintro ⟨h, -⟩
          cases h
        · rintro ⟨⟨rfl, -⟩, h⟩
          exact absurd rfl (h b (Or.inl rfl)).1
    · rename_i hb
      rcases name with _ | ⟨c, name⟩
      · split <;> simp [hb]
      · split
        · rename_i hp
          simp only [map_eq_done, List.cons.injEq, exists_eq_right_right, ih, List.cons_append,
            List.mem_cons, forall_eq_or_imp]
          constructor
          · rintro ⟨⟨rfl, h⟩, rfl⟩
            exact ⟨⟨rfl, rfl⟩, ⟨hb, hp⟩, h⟩
          · rintro ⟨⟨rfl, rfl⟩, -, h⟩
            exact ⟨⟨rfl, h⟩, rfl⟩
        · rename_i hp
          simp only [reduceCtorEq, List.cons_append, List.cons.injEq, List.mem_cons,
            forall_eq_or_imp, false_iff]
          rintro ⟨⟨rfl, -⟩, ⟨-, h⟩, -⟩
          exact hp h

theorem upTo_eq_more {stop : UInt8} {p : UInt8 → Bool} {why : Refusal} {bytes : Bytes} :
    upTo stop p why bytes = .more ↔ ∀ b ∈ bytes, b ≠ stop ∧ p b := by
  induction bytes with
  | nil => simp [upTo]
  | cons b bytes ih =>
    simp only [upTo, List.mem_cons, forall_eq_or_imp]
    split
    · simp_all
    · split <;> simp_all

theorem lf_ne_cr : Byte.lf ≠ Byte.cr := by decide

theorem lineEnd_eq_done {why : Refusal} {bytes rest : Bytes} {u : Unit} :
    lineEnd why bytes = .done u rest ↔
      bytes = Byte.lf :: rest ∨ bytes = Byte.cr :: Byte.lf :: rest := by
  rcases bytes with _ | ⟨b, _ | ⟨c, bytes⟩⟩
  · simp [lineEnd]
  · simp only [lineEnd]
    split
    · simp_all
    · split <;> simp_all
  · simp only [lineEnd]
    split
    · rename_i hb
      subst hb
      simp [lf_ne_cr]
    · split
      · split <;> simp_all
      · simp_all

theorem lineEnd_eq_more {why : Refusal} {bytes : Bytes} :
    lineEnd why bytes = .more ↔ bytes = [] ∨ bytes = [Byte.cr] := by
  rcases bytes with _ | ⟨b, _ | ⟨c, bytes⟩⟩
  · simp [lineEnd]
  · simp only [lineEnd]
    split
    · rename_i hb
      subst hb
      simp [lf_ne_cr]
    · split <;> simp_all
  · simp only [lineEnd]
    split
    · simp
    · split
      · split <;> simp
      · simp

/-- A class of bytes that a line may consist of. -/
def InLine (p : UInt8 → Bool) : Prop := p Byte.lf = false ∧ p Byte.cr = false

theorem restOfLine_eq_done {p : UInt8 → Bool} (hp : InLine p) {why : Refusal}
    {bytes text rest : Bytes} :
    restOfLine p why bytes = .done text rest ↔ (∀ b ∈ text, p b) ∧
      (bytes = text ++ Byte.lf :: rest ∨ bytes = text ++ Byte.cr :: Byte.lf :: rest) := by
  induction bytes generalizing text with
  | nil => simp [restOfLine]
  | cons b bytes ih =>
    simp only [restOfLine]
    split
    · rename_i hb
      have hlf : b ≠ Byte.lf := fun h => by simp [h, hp.1] at hb
      have hcr : b ≠ Byte.cr := fun h => by simp [h, hp.2] at hb
      rcases text with _ | ⟨c, text⟩
      · simp [hlf, hcr]
      · simp only [map_eq_done, List.cons.injEq, exists_eq_right_right, ih, List.cons_append,
          List.mem_cons, forall_eq_or_imp]
        constructor
        · rintro ⟨⟨h, he⟩, rfl⟩
          exact ⟨⟨hb, h⟩, he.imp (fun e => ⟨rfl, e⟩) fun e => ⟨rfl, e⟩⟩
        · rintro ⟨⟨-, h⟩, ⟨rfl, e⟩ | ⟨rfl, e⟩⟩
          · exact ⟨⟨h, Or.inl e⟩, rfl⟩
          · exact ⟨⟨h, Or.inr e⟩, rfl⟩
    · rename_i hb
      rcases text with _ | ⟨c, text⟩
      · simp [map_eq_done, lineEnd_eq_done]
      · simp only [map_eq_done, reduceCtorEq, and_false, exists_const, List.mem_cons,
          forall_eq_or_imp, List.cons_append, List.cons.injEq, false_iff]
        rintro ⟨⟨h, -⟩, ⟨rfl, -⟩ | ⟨rfl, -⟩⟩ <;> exact hb h

theorem restOfLine_eq_more {p : UInt8 → Bool} {why : Refusal} {bytes : Bytes}
    (h : restOfLine p why bytes = .more) :
    ∃ text, (∀ b ∈ text, p b) ∧ (bytes = text ∨ bytes = text ++ [Byte.cr]) := by
  induction bytes with
  | nil => exact ⟨[], by simp, Or.inl rfl⟩
  | cons b bytes ih =>
    simp only [restOfLine] at h
    split at h
    · rename_i hb
      obtain ⟨text, ht, he⟩ := ih (map_eq_more.mp h)
      refine ⟨b :: text, by simpa [hb] using ht, ?_⟩
      exact he.imp (congrArg (b :: ·)) (congrArg (b :: ·))
    · rcases lineEnd_eq_more.mp (map_eq_more.mp h) with he | he
      · cases he
      · exact ⟨[], by simp, Or.inr he⟩

/-! ### Empty lines -/

theorem emptyLines_lf (rest : Bytes) : emptyLines (Byte.lf :: rest) = emptyLines rest := by
  rw [emptyLines.eq_def]
  exact if_pos rfl

theorem emptyLines_crlf (rest : Bytes) :
    emptyLines (Byte.cr :: Byte.lf :: rest) = emptyLines rest := by
  rw [emptyLines.eq_def]
  exact (if_neg (by decide)).trans ((if_pos rfl).trans (if_pos rfl))

theorem emptyLines_lone_cr {c : UInt8} (hc : c ≠ Byte.lf) (rest : Bytes) :
    emptyLines (Byte.cr :: c :: rest) = .refused .newLine := by
  rw [emptyLines.eq_def]
  exact (if_neg (by decide)).trans ((if_pos rfl).trans (if_neg hc))

/-- A message begins where a line does that is not empty. -/
theorem emptyLines_cons {b : UInt8} (hlf : b ≠ Byte.lf) (hcr : b ≠ Byte.cr) (rest : Bytes) :
    emptyLines (b :: rest) = .done () (b :: rest) := by
  rw [emptyLines.eq_def]
  simp only [if_neg hlf, if_neg hcr]

theorem steady_emptyLines : Steady emptyLines := by
  intro bytes later
  fun_induction emptyLines bytes with
  | case1 => exact fun hne => absurd rfl hne
  | case2 rest ih => rw [List.cons_append, emptyLines_lf]; exact ih
  | case3 => exact fun hne => absurd rfl hne
  | case4 rest _ ih => rw [List.cons_append, List.cons_append, emptyLines_crlf]; exact ih
  | case5 c rest hc => exact fun _ => emptyLines_lone_cr hc _
  | case6 b rest hlf hcr => exact fun _ => emptyLines_cons hlf hcr _

/-- Empty lines end where another byte stands, which is left where it is. -/
theorem peeking_emptyLines : Peeking emptyLines := by
  intro bytes later a left
  fun_induction emptyLines bytes with
  | case1 => exact fun _ hd => leaves_emptyLines later a left hd
  | case2 rest ih => rw [List.cons_append, emptyLines_lf]; exact ih
  | case3 =>
    intro _ hd
    rcases later with _ | ⟨c, later⟩
    · cases hd
    rcases eq_or_ne c Byte.lf with rfl | hc
    · rw [List.cons_append, List.nil_append, emptyLines_crlf] at hd
      exact Nat.le_succ_of_le (leaves_emptyLines later a left hd)
    · rw [List.cons_append, List.nil_append, emptyLines_lone_cr hc] at hd
      cases hd
  | case4 rest _ ih => rw [List.cons_append, List.cons_append, emptyLines_crlf]; exact ih
  | case5 =>
    intro hm
    cases hm
  | case6 =>
    intro hm
    cases hm

end HttpReplay.Http
