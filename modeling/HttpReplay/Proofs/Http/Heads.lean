import HttpReplay.Http.Parse
import HttpReplay.Proofs.Http.Scanning

/-!
# Heads of messages that still arrive

Every head is steady: once it is there, or refused, no byte that comes later changes that
(`HttpReplay.Http.steady_requestHead`, `HttpReplay.Http.steady_responseHead`). The head of a
request is prompt as well (`HttpReplay.Http.prompt_requestHead`).

The room for field lines does not matter as long as there is enough of it. Less room gives the
same answer or refuses for want of room (`HttpReplay.Http.requestHead_of_le`), so trying with
more and more room is trying with the most room there is
(`HttpReplay.Http.requestHeadWidening_eq`).
-/

namespace HttpReplay.Http

open Scan

/-! ### The first line -/

theorem inLine_isFieldText : InLine isFieldText := ⟨by decide, by decide⟩

theorem isToken_lf : isToken Byte.lf = false := by decide

theorem isTarget_lf : isTarget Byte.lf = false := by decide

theorem steady_methodToken : Steady methodToken := (steady_upTo _ _ _).ensure _ _

theorem prompt_methodToken : Prompt methodToken :=
  (prompt_upTo _ _ _).ensure (steady_upTo _ _ _) _ _

theorem steady_targetToken : Steady fun bytes =>
    (upTo Byte.sp isTarget .token bytes).ensure (· ≠ []) .token :=
  (steady_upTo _ _ _).ensure _ _

theorem steady_target : Steady target := by
  refine steady_targetToken.bind fun name => ?_
  cases Bytes.text? name with
  | none => exact steady_refused _
  | some text => exact steady_done id text

theorem prompt_target : Prompt target := by
  refine ((prompt_upTo _ _ _).ensure (steady_upTo _ _ _) _ _).bind steady_targetToken
    (fun name rest => ?_) fun name => ?_
  · cases Bytes.text? name with
    | none => exact leaves_refused
    | some text => exact leaves_done (Nat.le_refl _)
  · cases Bytes.text? name with
    | none => exact prompt_of_ne_more (by simp)
    | some text => exact prompt_of_ne_more (by simp)

/-- Bytes that wait for the end of the version are the beginning of one. -/
theorem httpVersion_eq_more {bytes : Bytes} (h : httpVersion bytes = .more) :
    bytes.length < 8 ∧ bytes <+: Bytes.ascii "HTTP/1." := by
  unfold httpVersion at h
  dsimp only at h
  split at h
  · cases h
  split at h
  · cases h
  split at h
  · rename_i hw
    have hlen : bytes.length < 8 := by
      have := hw.1
      rw [List.length_take] at this
      omega
    rw [List.take_of_length_le (by omega)] at hw
    exact ⟨hlen, List.isPrefixOf_iff_prefix.mp hw.2⟩
  · cases h

/-- Fewer than eight bytes that begin no version are refused, and so is what begins with them. -/
theorem httpVersion_eq_refused {bytes : Bytes} (hlen : bytes.length < 8)
    (h : ¬ bytes <+: Bytes.ascii "HTTP/1.") (later : Bytes) :
    httpVersion (bytes ++ later) = .refused .version := by
  have hpre : bytes <+: (bytes ++ later).take 8 :=
    List.prefix_take_iff.mpr ⟨List.prefix_append _ _, by omega⟩
  have hne : ∀ w : Bytes, w.take 7 = Bytes.ascii "HTTP/1." → (bytes ++ later).take 8 ≠ w := by
    rintro w hw rfl
    exact h (hw ▸ List.prefix_take_iff.mpr ⟨hpre, by omega⟩)
  unfold httpVersion
  dsimp only
  rw [if_neg (hne _ (by decide)), if_neg (hne _ (by decide)), if_neg]
  rintro ⟨-, hw⟩
  exact h (hpre.trans (List.isPrefixOf_iff_prefix.mp hw))

theorem steady_httpVersion : Steady httpVersion := by
  intro bytes later hne
  rcases Nat.lt_or_ge bytes.length 8 with hlt | hge
  · have hpre : ¬ bytes <+: Bytes.ascii "HTTP/1." := by
      intro hp
      refine hne ?_
      have hw : bytes.take 8 = bytes := List.take_of_length_le (by omega)
      have hlong : ∀ w : Bytes, w.length = 8 → bytes ≠ w := by
        rintro w hl rfl
        omega
      unfold httpVersion
      dsimp only
      rw [hw, if_neg (hlong _ (by decide)), if_neg (hlong _ (by decide)),
        if_pos ⟨hlt, List.isPrefixOf_iff_prefix.mpr hp⟩]
    have hshort := httpVersion_eq_refused hlt hpre []
    rw [List.append_nil] at hshort
    rw [httpVersion_eq_refused hlt hpre later, hshort, extend_refused]
  · have hw : (bytes ++ later).take 8 = bytes.take 8 := List.take_append_of_le_length hge
    have hd : (bytes ++ later).drop 8 = bytes.drop 8 ++ later := List.drop_append_of_le_length hge
    unfold httpVersion
    dsimp only
    rw [hw, hd]
    split
    · rfl
    split
    · rfl
    rw [if_neg fun h => absurd h.1 (by rw [List.length_take]; omega)]
    rfl

theorem prompt_httpVersion : Prompt httpVersion := by
  intro bytes later v rest hm hd
  have hlt := (httpVersion_eq_more hm).1
  unfold httpVersion at hd
  dsimp only at hd
  have hlong : ∀ w : Bytes, w.length = 8 → (bytes ++ later).take 8 = w →
      (bytes ++ later).drop 8 = rest → rest.length < later.length := by
    rintro w hw rfl rfl
    rw [List.length_take, List.length_append] at hw
    rw [List.length_drop, List.length_append]
    omega
  split at hd
  · rename_i hw
    simp only [Scan.done.injEq] at hd
    exact hlong _ (by decide) hw hd.2
  split at hd
  · rename_i hw
    simp only [Scan.done.injEq] at hd
    exact hlong _ (by decide) hw hd.2
  split at hd <;> cases hd

theorem steady_space (why : Refusal) : Steady (space why) := by
  rintro (_ | ⟨b, rest⟩) later hne
  · exact absurd rfl hne
  · simp only [space, List.cons_append]
    split <;> rfl

theorem steady_digit : Steady digit := by
  rintro (_ | ⟨b, rest⟩) later hne
  · exact absurd rfl hne
  · simp only [digit, List.cons_append]
    split <;> rfl

theorem steady_statusCode : Steady statusCode :=
  steady_digit.bind fun _ => steady_digit.bind fun _ => steady_digit.bind fun _ =>
    steady_done (fun _ => _) ()

theorem steady_reason : Steady reason := by
  rintro (_ | ⟨b, rest⟩) later hne
  · exact absurd rfl hne
  · simp only [reason, List.cons_append] at hne ⊢
    split
    · rename_i hb
      rw [if_pos hb] at hne
      exact (steady_restOfLine _ _).map _ rest later hne
    · rename_i hb
      rw [if_neg hb] at hne
      exact (steady_lineEnd _).map _ (b :: rest) later hne

/-! ### Field lines -/

theorem steady_fieldLine : Steady fieldLine :=
  ((steady_upTo _ _ _).ensure _ _).bind fun _ => (steady_restOfLine _ _).map _

theorem prompt_fieldLine : Prompt fieldLine :=
  ((prompt_upTo _ _ _).ensure (steady_upTo _ _ _) _ _).bind ((steady_upTo _ _ _).ensure _ _)
    (fun _ rest => ((leaves_restOfLine _ _ rest).map _).mono (Nat.sub_le _ _))
    fun _ => (prompt_restOfLine _ _).map (steady_restOfLine _ _) _

/-- The field lines after one that has been read. -/
def fieldLinesAfter (room : Nat) (field : Field) (rest : Bytes) : Scan (List Field) :=
  match room with
  | 0 => .refused .tooManyHeaders
  | room + 1 => (fieldLines room rest).map (field :: ·)

/-- The empty line that ends a head. -/
theorem fieldLines_of_lineEnd {b : UInt8} (hb : b = Byte.lf ∨ b = Byte.cr) (room : Nat)
    (bytes : Bytes) :
    fieldLines room (b :: bytes) = (lineEnd .newLine (b :: bytes)).map fun _ => [] := by
  rw [fieldLines, atLineEnd, if_pos hb]
  cases lineEnd .newLine (b :: bytes) <;> rfl

/-- A line that is not empty is a field. -/
theorem fieldLines_of_field {b : UInt8} (hb : ¬ (b = Byte.lf ∨ b = Byte.cr)) (room : Nat)
    (bytes : Bytes) :
    fieldLines room (b :: bytes) = (fieldLine (b :: bytes)).bind (fieldLinesAfter room) := by
  rw [fieldLines, atLineEnd, if_neg hb]
  rfl

theorem fieldLines_nil (room : Nat) : fieldLines room [] = .more := by
  rw [fieldLines]
  rfl

theorem leaves_fieldLinesAfter (room : Nat) (field : Field) (rest : Bytes) :
    (fieldLinesAfter room field rest).Leaves rest.length := by
  cases room with
  | zero => exact leaves_refused
  | succ room => exact (leaves_fieldLines room rest).map _

theorem length_lt_of_fieldLines {room : Nat} {bytes rest : Bytes} {fields : List Field}
    (h : fieldLines room bytes = .done fields rest) : rest.length < bytes.length := by
  rcases bytes with _ | ⟨b, bytes⟩
  · rw [fieldLines_nil] at h
    cases h
  refine Nat.lt_succ_of_le ?_
  by_cases hb : b = Byte.lf ∨ b = Byte.cr
  · rw [fieldLines_of_lineEnd hb] at h
    exact (leaves_lineEnd _ (b :: bytes)).map _ fields rest h
  · rw [fieldLines_of_field hb] at h
    exact ((leaves_fieldLine (b :: bytes)).bind fun f r hr =>
      (leaves_fieldLinesAfter room f r).mono hr) fields rest h

theorem steady_fieldLines (room : Nat) : Steady (fieldLines room) := by
  have hafter : ∀ n, (∀ m < n, Steady (fieldLines m)) →
      ∀ field, Steady (fieldLinesAfter n field) := by
    rintro (_ | n) ih field
    · exact steady_refused _
    · exact (ih n (Nat.lt_succ_self n)).map _
  -- Every line takes some of the room.
  induction room using Nat.strongRecOn with
  | _ room ih =>
    rintro (_ | ⟨b, bytes⟩) later
    · rw [fieldLines_nil]
      exact fun hne => absurd rfl hne
    · by_cases hb : b = Byte.lf ∨ b = Byte.cr
      · rw [List.cons_append, fieldLines_of_lineEnd hb, fieldLines_of_lineEnd hb]
        exact (steady_lineEnd _).map _ (b :: bytes) later
      · rw [List.cons_append, fieldLines_of_field hb, fieldLines_of_field hb]
        exact steady_fieldLine.bind (hafter room ih) (b :: bytes) later

theorem prompt_fieldLines (room : Nat) : Prompt (fieldLines room) := by
  have hafter : ∀ n, (∀ m < n, Prompt (fieldLines m)) →
      ∀ field, Prompt (fieldLinesAfter n field) := by
    rintro (_ | n) ih field
    · exact prompt_of_ne_more (by simp [fieldLinesAfter])
    · exact (ih n (Nat.lt_succ_self n)).map (steady_fieldLines n) _
  -- Every line takes some of the room.
  induction room using Nat.strongRecOn with
  | _ room ih =>
    rintro (_ | ⟨b, bytes⟩) later fields rest
    · exact fun _ hd => length_lt_of_fieldLines hd
    · by_cases hb : b = Byte.lf ∨ b = Byte.cr
      · rw [List.cons_append, fieldLines_of_lineEnd hb, fieldLines_of_lineEnd hb]
        exact (prompt_lineEnd _).map (steady_lineEnd _) _ (b :: bytes) later fields rest
      · rw [List.cons_append, fieldLines_of_field hb, fieldLines_of_field hb]
        exact prompt_fieldLine.bind steady_fieldLine (leaves_fieldLinesAfter room)
          (hafter room ih) (b :: bytes) later fields rest

/-! ### Whole heads -/

/-- The first line of a request: its method, its target and the minor version. -/
def requestLine (bytes : Bytes) : Scan (Bytes × String × Nat) :=
  (methodToken bytes).bind fun method rest => (target rest).bind fun path rest =>
    (httpVersion rest).bind fun version rest =>
      (lineEnd .newLine rest).map fun _ => (method, path, version)

/-- A head is its empty lines, its first line and its field lines. -/
theorem requestHead_eq (room : Nat) (bytes : Bytes) :
    requestHead room bytes = (emptyLines bytes).bind fun _ rest =>
      (requestLine rest).bind fun line rest => (fieldLines room rest).map fun fields =>
        ⟨Bytes.latin1 line.1, line.2.1, line.2.2, fields⟩ := by
  simp only [requestHead, requestLine, map_eq_bind, bind_assoc, bind_done]

theorem steady_requestHead (room : Nat) : Steady (requestHead room) :=
  steady_emptyLines.bind fun _ => steady_methodToken.bind fun _ => steady_target.bind fun _ =>
    steady_httpVersion.bind fun _ => (steady_lineEnd _).bind fun _ => (steady_fieldLines room).map _

theorem steady_responseHead (room : Nat) : Steady (responseHead room) :=
  steady_emptyLines.bind fun _ => steady_httpVersion.bind fun _ => (steady_space _).bind fun _ =>
    steady_statusCode.bind fun _ => steady_reason.bind fun _ => (steady_fieldLines room).map _

theorem prompt_requestHead (room : Nat) : Prompt (requestHead room) := by
  -- Part by part, where what is behind a part leaves no more than it finds.
  refine peeking_emptyLines.bind steady_emptyLines (fun _ r₀ => ?_) fun _ => ?_
  · exact (leaves_methodToken r₀).bind fun _ r₁ h₁ => (leaves_target r₁).bind fun _ r₂ h₂ =>
      (leaves_httpVersion r₂).bind fun _ r₃ h₃ => (leaves_lineEnd _ r₃).bind fun _ r₄ h₄ =>
        ((leaves_fieldLines room r₄).map _).mono (by omega)
  refine prompt_methodToken.bind steady_methodToken (fun _ r₁ => ?_) fun _ => ?_
  · exact (leaves_target r₁).bind fun _ r₂ h₂ => (leaves_httpVersion r₂).bind fun _ r₃ h₃ =>
      (leaves_lineEnd _ r₃).bind fun _ r₄ h₄ => ((leaves_fieldLines room r₄).map _).mono (by omega)
  refine prompt_target.bind steady_target (fun _ r₂ => ?_) fun _ => ?_
  · exact (leaves_httpVersion r₂).bind fun _ r₃ h₃ => (leaves_lineEnd _ r₃).bind fun _ r₄ h₄ =>
      ((leaves_fieldLines room r₄).map _).mono (by omega)
  refine prompt_httpVersion.bind steady_httpVersion (fun _ r₃ => ?_) fun _ => ?_
  · exact (leaves_lineEnd _ r₃).bind fun _ r₄ h₄ =>
      ((leaves_fieldLines room r₄).map _).mono (by omega)
  refine (prompt_lineEnd _).bind (steady_lineEnd _) (fun _ r₄ => ?_) fun _ => ?_
  · exact (leaves_fieldLines room r₄).map _
  · exact (prompt_fieldLines room).map (steady_fieldLines room) _

/-! ### Room for field lines -/

/-- Two continuations that differ at most for want of room differ at most so behind a scan. -/
theorem bind_eq_or_tooMany {α β : Type} (s : Scan α) {f g : α → Bytes → Scan β}
    (h : ∀ a rest, f a rest = g a rest ∨ f a rest = .refused .tooManyHeaders) :
    s.bind f = s.bind g ∨ s.bind f = .refused .tooManyHeaders := by
  cases s with
  | done a rest => exact h a rest
  | more => exact Or.inl rfl
  | refused why => exact Or.inl rfl

theorem map_eq_or_tooMany {α β : Type} {s t : Scan α} (c : α → β)
    (h : s = t ∨ s = .refused .tooManyHeaders) :
    s.map c = t.map c ∨ s.map c = .refused .tooManyHeaders := by
  rcases h with rfl | rfl
  · exact Or.inl rfl
  · exact Or.inr rfl

/-- With less room the field lines are the same, or there is no room for them. -/
theorem fieldLines_of_le {m n : Nat} (hmn : m ≤ n) (bytes : Bytes) :
    fieldLines m bytes = fieldLines n bytes ∨ fieldLines m bytes = .refused .tooManyHeaders := by
  induction m generalizing n bytes with
  | zero =>
    rcases bytes with _ | ⟨b, bytes⟩
    · exact Or.inl (by rw [fieldLines_nil, fieldLines_nil])
    by_cases hb : b = Byte.lf ∨ b = Byte.cr
    · exact Or.inl (by rw [fieldLines_of_lineEnd hb, fieldLines_of_lineEnd hb])
    · rw [fieldLines_of_field hb, fieldLines_of_field hb]
      exact bind_eq_or_tooMany _ fun _ _ => Or.inr rfl
  | succ m ih =>
    obtain ⟨n, rfl⟩ : ∃ k, n = k + 1 := ⟨n - 1, by omega⟩
    rcases bytes with _ | ⟨b, bytes⟩
    · exact Or.inl (by rw [fieldLines_nil, fieldLines_nil])
    by_cases hb : b = Byte.lf ∨ b = Byte.cr
    · exact Or.inl (by rw [fieldLines_of_lineEnd hb, fieldLines_of_lineEnd hb])
    · rw [fieldLines_of_field hb, fieldLines_of_field hb]
      exact bind_eq_or_tooMany _ fun _ rest => map_eq_or_tooMany _ (ih (by omega) rest)

theorem requestHead_of_le {m n : Nat} (hmn : m ≤ n) (bytes : Bytes) :
    requestHead m bytes = requestHead n bytes ∨
      requestHead m bytes = .refused .tooManyHeaders :=
  bind_eq_or_tooMany _ fun _ _ => bind_eq_or_tooMany _ fun _ _ => bind_eq_or_tooMany _ fun _ _ =>
    bind_eq_or_tooMany _ fun _ _ => bind_eq_or_tooMany _ fun _ rest =>
      map_eq_or_tooMany _ (fieldLines_of_le hmn rest)

theorem responseHead_of_le {m n : Nat} (hmn : m ≤ n) (bytes : Bytes) :
    responseHead m bytes = responseHead n bytes ∨
      responseHead m bytes = .refused .tooManyHeaders :=
  bind_eq_or_tooMany _ fun _ _ => bind_eq_or_tooMany _ fun _ _ => bind_eq_or_tooMany _ fun _ _ =>
    bind_eq_or_tooMany _ fun _ _ => bind_eq_or_tooMany _ fun _ rest =>
      map_eq_or_tooMany _ (fieldLines_of_le hmn rest)

/-- **Trying with more and more room** is trying with the most. -/
theorem widening_eq_last {α : Type} {read : Nat → Scan α} {last : Nat}
    (h : ∀ m, m ≤ last → read m = read last ∨ read m = .refused .tooManyHeaders) :
    ∀ rooms : List Nat, (∀ m ∈ rooms, m ≤ last) → widening read (rooms ++ [last]) = read last
  | [], _ => by
    simp only [List.nil_append, widening]
    split
    · rename_i hr
      exact hr.symm
    · rfl
  | room :: rooms, hle => by
    have ih := widening_eq_last h rooms fun m hm => hle m (List.mem_cons_of_mem room hm)
    simp only [List.cons_append, widening]
    split
    · exact ih
    · rename_i hne
      exact (h room (hle room List.mem_cons_self)).resolve_right hne

theorem requestHeadWidening_eq (bytes : Bytes) :
    requestHeadWidening bytes = requestHead mostFields bytes :=
  widening_eq_last (fun _ hm => requestHead_of_le hm bytes) [64, 128, 256, 512] (by decide)

theorem responseHeadWidening_eq (bytes : Bytes) :
    responseHeadWidening bytes = responseHead mostFields bytes :=
  widening_eq_last (fun _ hm => responseHead_of_le hm bytes) [64, 128, 256, 512] (by decide)

theorem steady_requestHeadWidening : Steady requestHeadWidening := by
  rw [funext requestHeadWidening_eq]
  exact steady_requestHead mostFields

theorem prompt_requestHeadWidening : Prompt requestHeadWidening := by
  rw [funext requestHeadWidening_eq]
  exact prompt_requestHead mostFields

theorem steady_responseHeadWidening : Steady responseHeadWidening := by
  rw [funext responseHeadWidening_eq]
  exact steady_responseHead mostFields

end HttpReplay.Http
