import HttpReplay.Proofs.Http.Grammar
import HttpReplay.Proofs.Text.Latin

/-!
# Heads that are sent

A head that a well-behaved client or server puts on the wire is read back as it was sent, whatever
stands behind it. What a client sends is in the grammar of heads, so it is read as every head of the
grammar is; of what a server sends that is so for the field lines, and the first line is read word
by word.

* `HttpReplay.Http.isFieldLines_of_sent` and `HttpReplay.Http.isRequestHead_of_sent` place what is
  sent in the grammar;
* `HttpReplay.Http.requestHead_of_sent` and `HttpReplay.Http.responseHead_of_sent` read whole
  heads.
-/

namespace HttpReplay.Http

open Scan

/-! ### Field lines -/

theorem isLineEnd_crlf : IsLineEnd [Byte.cr, Byte.lf] := Or.inr rfl

/-- **Field lines that are sent** are in the grammar. -/
theorem isFieldLines_of_sent {fields : List Field} (h : ∀ f ∈ fields, IsSendableField f) :
    IsFieldLines (fields.flatMap fieldLineOf ++ lineOf []) fields := by
  induction fields with
  | nil => exact .empty isLineEnd_crlf
  | cons f fields ih =>
    obtain ⟨⟨hne, hname, hvalue, htrim⟩, hfields⟩ := List.forall_mem_cons.mp h
    have htext : ∀ b ∈ Byte.sp :: f.value, isFieldText b = true := by
      rintro b (_ | ⟨_, hb⟩)
      · decide
      · exact List.all_eq_true.mp hvalue b hb
    have hblank : Bytes.trimBy Byte.isBlank (Byte.sp :: f.value) = f.value := htrim
    have hline := IsFieldLines.line hne (List.all_eq_true.mp hname) htext isLineEnd_crlf
      (ih hfields)
    rw [hblank] at hline
    simpa [fieldLineOf, lineOf] using hline

/-! ### Words of the first line -/

theorem digit_of_lt {d : Nat} (h : d < 10) (rest : Bytes) :
    digit ((48 + d).toUInt8 :: rest) = .done d rest := by
  have hdigit : ∀ d < 10,
      Byte.isDigit (48 + d).toUInt8 = true ∧ (48 + d).toUInt8.toNat - 48 = d := by
    decide
  rw [digit, if_pos (hdigit d h).1, (hdigit d h).2]

theorem statusCode_of_sent {status : Nat} (h : status < 1000) (rest : Bytes) :
    statusCode (statusWord status ++ rest) = .done status rest := by
  have hword : statusWord status ++ rest = (48 + status / 100).toUInt8 ::
      (48 + status / 10 % 10).toUInt8 :: (48 + status % 10).toUInt8 :: rest := rfl
  rw [hword, statusCode, digit_of_lt (by omega), bind_done, digit_of_lt (by omega), bind_done,
    digit_of_lt (by omega), bind_done]
  congr 1
  omega

theorem lt_of_isVisible {b : UInt8} (h : (33 ≤ b && b ≤ 126) = true) : b < 128 := by
  simp only [Bool.and_eq_true, decide_eq_true_eq] at h
  exact UInt8.lt_of_le_of_lt h.2 (by decide)

theorem isTarget_of_isVisible {b : UInt8} (h : (33 ≤ b && b ≤ 126) = true) :
    isTarget b = true := by
  have hdel : b ≠ Byte.del := by
    rintro rfl
    exact absurd h (by decide)
  simp only [Bool.and_eq_true, decide_eq_true_eq] at h
  simp [isTarget, h.1, hdel]

theorem reason_of_sent {text : Bytes} (h : ∀ b ∈ text, (32 ≤ b && b ≤ 126) = true)
    (rest : Bytes) :
    reason (Byte.sp :: (text ++ Byte.cr :: Byte.lf :: rest)) = .done (Bytes.latin1 text) rest := by
  have htext : ∀ b ∈ text, isFieldText b = true := by
    intro b hb
    have hdel : b ≠ Byte.del := by
      rintro rfl
      exact absurd (h _ hb) (by decide)
    have := h b hb
    simp only [Bool.and_eq_true, decide_eq_true_eq] at this
    simp [isFieldText, this.1, hdel]
  have hascii : text.all (· < 128) = true := by
    refine List.all_eq_true.mpr fun b hb => ?_
    have := h b hb
    simp only [Bool.and_eq_true, decide_eq_true_eq] at this
    exact decide_eq_true (UInt8.lt_of_le_of_lt this.2 (by decide))
  rw [reason, if_pos rfl,
    (restOfLine_eq_done inLine_isFieldText).mpr ⟨htext, Or.inr rfl⟩, Scan.map, if_pos hascii]

/-! ### Whole heads -/

/-- **The head of a request that is sent** is in the grammar. -/
theorem isRequestHead_of_sent {r : SentRequest} (h : r.IsSendable) :
    IsRequestHead r.head ⟨Bytes.latin1 r.method, Bytes.latin1 r.target, r.version, r.fields⟩ := by
  have hvisible := List.all_eq_true.mp h.target_visible
  have hpath : Bytes.text? r.target = some (Bytes.latin1 r.target) :=
    Bytes.text?_of_forall fun b hb => lt_of_isVisible (hvisible b hb)
  have hline := IsRequestLine.words h.method_ne_nil (List.all_eq_true.mp h.method_token)
    h.target_ne_nil (fun b hb => isTarget_of_isVisible (hvisible b hb)) hpath h.version_le
    isLineEnd_crlf
  have hhead := IsRequestHead.lines hline (isFieldLines_of_sent h.fields_sendable)
  simpa [SentRequest.head, headOf, lineOf, SentRequest.firstLine] using hhead

/-- **The head of a request that is sent** is read back. -/
theorem requestHead_of_sent {r : SentRequest} (h : r.IsSendable) (rest : Bytes) :
    requestHead mostFields (r.head ++ rest) =
      .done ⟨Bytes.latin1 r.method, Bytes.latin1 r.target, r.version, r.fields⟩ rest :=
  requestHead_eq_done.mpr ⟨r.head, rfl, isRequestHead_of_sent h, h.fields_le⟩

/-- **The head of a response that is sent** is read back. -/
theorem responseHead_of_sent {r : SentResponse} (h : r.IsSendable) (rest : Bytes) :
    responseHead mostFields (r.head ++ rest) =
      .done ⟨r.version, r.status, Bytes.latin1 r.reason, r.fields⟩ rest := by
  have hbytes : r.head ++ rest =
      versionWord r.version ++ (Byte.sp :: (statusWord r.status ++ (Byte.sp :: (r.reason ++
        Byte.cr :: Byte.lf :: (r.fields.flatMap fieldLineOf ++ lineOf [] ++ rest))))) := by
    simp [SentResponse.head, headOf, lineOf, SentResponse.firstLine]
  have hempty : ∀ after, emptyLines (versionWord r.version ++ after) =
      .done () (versionWord r.version ++ after) := by
    intro after
    rcases Nat.le_one_iff_eq_zero_or_eq_one.mp h.version_le with hv | hv <;> rw [hv] <;>
      exact emptyLines_cons (by decide) (by decide) _
  rw [responseHead, hbytes, hempty, bind_done, httpVersion_eq_done.mpr ⟨h.version_le, rfl⟩,
    bind_done, space, if_pos rfl, bind_done, statusCode_of_sent h.status_lt, bind_done,
    reason_of_sent (List.all_eq_true.mp h.reason_printable), bind_done,
    (isFieldLines_of_sent h.fields_sendable).read, if_pos h.fields_le]
  rfl

end HttpReplay.Http
