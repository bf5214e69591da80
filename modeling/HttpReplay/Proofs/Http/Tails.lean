import HttpReplay.Proofs.Http.LenientHeads

/-!
# What a scan leaves

A scan takes bytes off the front, so what it leaves is the end of the bytes it was given. A head may
therefore be told by its length alone: what follows it is found behind so many bytes.

* `HttpReplay.Http.LeavesTail` is the property, and `HttpReplay.Http.LeavesTail.eq_drop` is its use;
* `HttpReplay.Http.leavesTail_anyRequestHead` and
  `HttpReplay.Http.leavesTail_responseHeadWidening` are the two heads.
-/

namespace HttpReplay.Http

open Scan

/-- What a scan leaves is the end of the bytes that it was given. -/
def LeavesTail {α : Type} (f : Bytes → Scan α) : Prop :=
  ∀ bytes a rest, f bytes = .done a rest → rest <:+ bytes

section Tails

variable {α β : Type} {f : Bytes → Scan α} {g : α → Bytes → Scan β}

theorem LeavesTail.eq_drop (hf : LeavesTail f) {bytes rest : Bytes} {a : α}
    (h : f bytes = .done a rest) : bytes.drop (bytes.length - rest.length) = rest :=
  (List.suffix_iff_eq_drop.mp (hf bytes a rest h)).symm

theorem LeavesTail.bind (hf : LeavesTail f) (hg : ∀ a, LeavesTail (g a)) :
    LeavesTail fun bytes => (f bytes).bind g := by
  intro bytes b rest hd
  cases hb : f bytes with
  | done a r =>
    simp only [hb, bind_done] at hd
    exact (hg a r b rest hd).trans (hf bytes a r hb)
  | more => simp [hb] at hd
  | refused why => simp [hb] at hd

theorem leavesTail_done (c : α → β) (a : α) : LeavesTail fun rest => Scan.done (c a) rest := by
  rintro bytes b rest hd
  cases hd
  exact List.suffix_rfl

theorem leavesTail_refused (why : Refusal) : LeavesTail fun _ => (Scan.refused why : Scan α) := by
  rintro bytes b rest hd
  cases hd

theorem LeavesTail.map (hf : LeavesTail f) (c : α → β) :
    LeavesTail fun bytes => (f bytes).map c := by
  intro bytes b rest hd
  obtain ⟨a, hd, -⟩ := map_eq_done.mp hd
  exact hf bytes a rest hd

theorem WithinLine.leavesTail (hf : WithinLine f) : LeavesTail f := by
  intro bytes a rest hd
  obtain ⟨taken, rfl, -⟩ := hf.2 bytes a rest hd
  exact List.suffix_append _ _

theorem WholeLine.leavesTail (hf : WholeLine f) : LeavesTail f := by
  intro bytes a rest hd
  obtain ⟨line, rfl, -⟩ := hf.2 bytes a rest hd
  exact (List.suffix_cons _ _).trans (List.suffix_append _ _)

end Tails

/-! ### The strict rules -/

theorem leavesTail_emptyLines : LeavesTail emptyLines := by
  intro bytes u rest hd
  fun_induction emptyLines bytes with
  | case1 => cases hd
  | case2 after ih => exact (ih hd).trans (List.suffix_cons _ _)
  | case3 => cases hd
  | case4 after _ ih => exact (ih hd).trans ((List.suffix_cons _ _).trans (List.suffix_cons _ _))
  | case5 => cases hd
  | case6 =>
    cases hd
    exact List.suffix_rfl

theorem leavesTail_space (why : Refusal) : LeavesTail (space why) := by
  intro bytes u rest hd
  cases bytes with
  | nil => cases hd
  | cons b after =>
    rw [space] at hd
    split at hd <;> cases hd
    exact List.suffix_cons _ _

theorem leavesTail_digit : LeavesTail digit := by
  intro bytes n rest hd
  cases bytes with
  | nil => cases hd
  | cons b after =>
    rw [digit] at hd
    split at hd <;> cases hd
    exact List.suffix_cons _ _

theorem leavesTail_statusCode : LeavesTail statusCode :=
  leavesTail_digit.bind fun _ => leavesTail_digit.bind fun _ => leavesTail_digit.bind fun _ =>
    leavesTail_done _ _

theorem leavesTail_reason : LeavesTail reason := by
  intro bytes text rest hd
  cases bytes with
  | nil => cases hd
  | cons b after =>
    rw [reason] at hd
    split at hd
    · have := (wholeLine_restOfLine inLine_isFieldText .status).leavesTail.map
        (fun text => if text.all (· < 128) then Bytes.latin1 text else "") after text rest hd
      exact this.trans (List.suffix_cons _ _)
    · exact (wholeLine_lineEnd .status).leavesTail.map (fun _ => "") _ text rest hd

theorem leavesTail_fieldLines (room : Nat) : LeavesTail (fieldLines room) := by
  have hafter : ∀ n, (∀ m < n, LeavesTail (fieldLines m)) →
      ∀ field, LeavesTail (fieldLinesAfter n field) := by
    rintro (_ | n) ih field
    · exact leavesTail_refused _
    · exact (ih n (Nat.lt_succ_self n)).map _
  -- Every line takes some of the room.
  induction room using Nat.strongRecOn with
  | _ room ih =>
    rintro (_ | ⟨b, bytes⟩) fields rest hd
    · rw [fieldLines_nil] at hd
      cases hd
    · by_cases hb : b = Byte.lf ∨ b = Byte.cr
      · rw [fieldLines_of_lineEnd hb] at hd
        exact (wholeLine_lineEnd _).leavesTail.map _ (b :: bytes) fields rest hd
      · rw [fieldLines_of_field hb] at hd
        exact wholeLine_fieldLine.leavesTail.bind (hafter room ih) (b :: bytes) fields rest hd

theorem leavesTail_requestHead (room : Nat) : LeavesTail (requestHead room) :=
  leavesTail_emptyLines.bind fun _ => withinLine_methodToken.leavesTail.bind fun _ =>
    withinLine_target.leavesTail.bind fun _ => withinLine_httpVersion.leavesTail.bind fun _ =>
      (wholeLine_lineEnd _).leavesTail.bind fun _ => (leavesTail_fieldLines room).map _

theorem leavesTail_responseHead (room : Nat) : LeavesTail (responseHead room) :=
  leavesTail_emptyLines.bind fun _ => withinLine_httpVersion.leavesTail.bind fun _ =>
    (leavesTail_space _).bind fun _ => leavesTail_statusCode.bind fun _ =>
      leavesTail_reason.bind fun _ => (leavesTail_fieldLines room).map _

/-! ### The lenient rules -/

namespace Lenient

theorem suffix_of_line? {bytes line rest : Bytes} (h : line? bytes = some (line, rest)) :
    rest <:+ bytes := by
  obtain ⟨raw, rfl, -⟩ := line?_eq_some.mp h
  exact (List.suffix_cons _ _).trans (List.suffix_append _ _)

theorem leavesTail_fieldLines (why : Refusal) (fields : List Field) :
    LeavesTail (fieldLines why fields) := by
  intro bytes got rest hd
  fun_induction fieldLines why fields bytes with
  | case1 => cases hd
  | case2 fields bytes after hl =>
    cases hd
    exact suffix_of_line? hl
  | case3 => cases hd
  | case4 fields bytes line after hl _ _ _ ih => exact (ih hd).trans (suffix_of_line? hl)

theorem leavesTail_requestHead (why : Refusal) : LeavesTail (requestHead why) := by
  intro bytes head rest hd
  cases hl : line? bytes with
  | none =>
    rw [requestHead_of_none hl] at hd
    split at hd <;> cases hd
  | some p =>
    obtain ⟨line, after⟩ := p
    rw [requestHead_of_some hl] at hd
    split at hd
    · cases hd
    · exact ((leavesTail_fieldLines why []).map _ after head rest hd).trans (suffix_of_line? hl)

end Lenient

/-! ### Heads of either kind -/

theorem leavesTail_anyRequestHead : LeavesTail anyRequestHead := by
  intro bytes head rest hd
  cases hs : requestHeadWidening bytes with
  | done got after =>
    rw [anyRequestHead_of_ne_refused (by simp [hs]), requestHeadWidening_eq] at hd
    exact leavesTail_requestHead mostFields bytes head rest hd
  | more =>
    rw [anyRequestHead_of_ne_refused (by simp [hs]), hs] at hd
    cases hd
  | refused why =>
    rw [anyRequestHead_of_refused hs] at hd
    split at hd
    · exact Lenient.leavesTail_requestHead why bytes head rest hd
    · cases hd

theorem leavesTail_responseHeadWidening : LeavesTail responseHeadWidening := by
  rw [funext responseHeadWidening_eq]
  exact leavesTail_responseHead mostFields

end HttpReplay.Http
