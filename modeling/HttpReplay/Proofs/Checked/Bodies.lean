import HttpReplay.Proofs.Checked.Words
import HttpReplay.Proofs.Http.Chunked

/-!
# Bodies, read with positions

The decoder of the chunked coding as a machine runs it: one position that goes through the buffer,
an outer loop over the pieces and an inner one over the lines behind the last of them. A size comes
from the wire and may be any word, so the sum of a position and a size is tried before it is used,
and the place behind the data is only looked at where the buffer is known to reach it.

* `HttpReplay.Checked.decodeChunked_eq` says that the loops end, that no position leaves the buffer
  or the words, and that the outcome is that of `HttpReplay.Http.Chunked.decode`;
* `HttpReplay.Checked.readBody_eq` is the same for bodies of any framing.
-/

namespace HttpReplay.Checked

open Http Http.Chunked

/-! ### Ends of lines -/

/-- The position of the first carriage return with a line feed behind it. -/
def crlf? : Bytes → Option Nat
  | first :: second :: rest =>
    if first = Byte.cr ∧ second = Byte.lf then some 0 else (crlf? (second :: rest)).map (· + 1)
  | _ => none

theorem crlf?_eq (bytes : Bytes) :
    crlf? bytes = (Bytes.splitCrlf? bytes).map fun (line, _) => line.length := by
  fun_induction crlf? bytes with
  | case1 first second rest h =>
    obtain ⟨rfl, rfl⟩ := h
    rfl
  | case2 first second rest h ih =>
    have hne : ¬ (first = Byte.cr ∧ (second :: rest).head? = some Byte.lf) := by simpa using h
    rw [ih, show Bytes.splitCrlf? (first :: second :: rest) = _ from if_neg hne, Option.map_map,
      Option.map_map]
    rfl
  | case3 bytes h =>
    match bytes with
    | [] => rfl
    | [b] => simp [Bytes.splitCrlf?]
    | first :: second :: rest => exact absurd rfl (h first second rest)

section Line

variable {buffer line rest : Bytes} {position : Nat}

/-- A line that begins at a position, and its end, are in the buffer. -/
theorem length_line (hs : Bytes.splitCrlf? (buffer.drop position) = some (line, rest)) :
    position + line.length + 2 ≤ buffer.length := by
  have := Bytes.length_of_splitCrlf? hs
  rw [List.length_drop] at this
  omega

theorem drop_line (hs : Bytes.splitCrlf? (buffer.drop position) = some (line, rest)) :
    buffer.drop (position + line.length + 2) = rest := by
  have := Bytes.eq_append_of_splitCrlf? hs
  rw [Nat.add_assoc, ← List.drop_drop, this, ← List.drop_drop, List.drop_left]
  rfl

theorem take_line (hs : Bytes.splitCrlf? (buffer.drop position) = some (line, rest)) :
    (buffer.drop position).take (position + line.length - position) = line := by
  rw [Nat.add_sub_cancel_left, Bytes.eq_append_of_splitCrlf? hs, List.take_left]

end Line

/-! ### The lines after the last piece -/

/-- One line after the last piece: where it ends, if it is not empty, and else that this is where
the body ends; nothing if the line has no end. -/
def trailerRound (buffer : Bytes) (position : Nat) : Guarded (Nat ⊕ Option Nat) := do
  match crlf? (← sliceFrom buffer position) with
  | none => return .inr none
  | some n =>
    let position ← sum position (← sum n 2)
    if n = 0 then return .inr (some position) else return .inl position

section Trailer

variable {buffer : Bytes} {position : Nat}

theorem trailerRound_advances (hb : buffer.length < bufferLimit) (hp : position ≤ buffer.length) :
    Advances (trailerRound buffer) (· ≤ buffer.length) (buffer.length - ·)
      (fun position => (trailer? (buffer.drop position)).map (position + ·)) position := by
  rw [Advances, trailerRound, sliceFrom_eq_ok hp, ok_bind, crlf?_eq]
  cases hs : Bytes.splitCrlf? (buffer.drop position) with
  | none => exact Or.inl (by rw [trailer?_of_none hs]; rfl)
  | some p =>
    obtain ⟨line, rest⟩ := p
    have hlen := length_line hs
    have hsum := sum_eq_ok (add_lt_wordLimit (b := 2) (a := line.length) (by omega) (by omega))
    have hnext := sum_eq_ok (a := position) (b := line.length + 2)
      (by have := wordLimit_eq; omega)
    rw [trailer?_of_some hs]
    simp only [Option.map_some, hsum, hnext, ok_bind, List.length_eq_zero_iff]
    split
    · rename_i hl
      subst hl
      exact Or.inl rfl
    · refine Or.inr ⟨_, rfl, by omega, by omega, ?_⟩
      rw [← Nat.add_assoc, drop_line hs, Option.map_map]
      refine congrArg (Option.map · _) (funext fun n => ?_)
      simp only [Function.comp_apply]
      omega

/-- **The lines after the last piece** are gone through to their end. -/
theorem loop_trailer (hb : buffer.length < bufferLimit) (hp : position ≤ buffer.length) :
    loop (trailerRound buffer) (buffer.length + 1) position =
      .ok ((trailer? (buffer.drop position)).map (position + ·)) :=
  loop_eq_ok (fun _ h => trailerRound_advances hb h) hp (by omega)

end Trailer

/-! ### The pieces -/

/-- The data of a piece, whose size is not zero, and the end behind it. -/
def pieceRound (buffer : Bytes) (position size : Nat) (decoded : Bytes) :
    Guarded ((Nat × Bytes) ⊕ Outcome) :=
  if Numeral.wordLimit ≤ position + size then return .inr .invalid
  else
    let dataEnd := position + size
    if buffer.length < saturatingSum dataEnd 2 then do
      let data ← slice buffer position (min buffer.length dataEnd)
      return .inr (.partly (decoded ++ data))
    else do
      let data ← slice buffer position dataEnd
      if (← slice buffer dataEnd (← sum dataEnd 2)) = [Byte.cr, Byte.lf] then
        return .inl (← sum dataEnd 2, decoded ++ data)
      else return .inr .invalid

/-- One piece: the position behind it and the data so far, or else how the decoding ends. -/
def decodeRound (buffer : Bytes) : Nat × Bytes → Guarded ((Nat × Bytes) ⊕ Outcome)
  | (position, decoded) => do
    match crlf? (← sliceFrom buffer position) with
    | none => return .inr (.partly decoded)
    | some lineEnd =>
      match size? (← slice buffer position (← sum position lineEnd)) with
      | none => return .inr .invalid
      | some 0 =>
        match ← loop (trailerRound buffer) (buffer.length + 1)
          (← sum position (← sum lineEnd 2)) with
        | none => return .inr (.partly decoded)
        | some consumed => return .inr (.complete consumed decoded)
      | some size => pieceRound buffer (← sum position (← sum lineEnd 2)) size decoded

/-- **The decoder**: round by round from the front of the buffer. -/
def decodeChunked (buffer : Bytes) : Guarded Outcome :=
  loop (decodeRound buffer) (buffer.length + 1) (0, [])

theorem after_after (o : Outcome) (front back : Bytes) :
    (o.after back).after front = o.after (front ++ back) := by
  cases o <;> simp [Outcome.after]

theorem exists_cons_cons {bytes : Bytes} (h : 2 ≤ bytes.length) :
    ∃ first second after, bytes = first :: second :: after := by
  match bytes with
  | first :: second :: after => exact ⟨first, second, after, rfl⟩

section Piece

variable {buffer : Bytes} {position size : Nat}

/-- The data would end beyond the words. -/
theorem pieceRound_of_beyond (hw : Numeral.wordLimit ≤ position + size) (decoded : Bytes) :
    pieceRound buffer position size decoded = .ok (.inr .invalid) :=
  if_pos hw

/-- The buffer ends within the piece. -/
theorem pieceRound_of_short (hp : position ≤ buffer.length)
    (hw : position + size < Numeral.wordLimit)
    (hshort : buffer.length < saturatingSum (position + size) 2) (decoded : Bytes) :
    pieceRound buffer position size decoded =
      .ok (.inr (.partly (decoded ++ (buffer.drop position).take size))) := by
  rw [pieceRound, if_neg (Nat.not_le.mpr hw)]
  dsimp only
  rw [if_pos hshort, slice_eq_ok (by omega) (Nat.min_le_left _ _), ok_bind]
  refine congrArg (fun data => Except.ok (Sum.inr (Outcome.partly (decoded ++ data)))) ?_
  rw [List.take_eq_take_iff, List.length_drop]
  omega

/-- All of the piece is there, with two bytes behind its data. -/
theorem pieceRound_of_long {first second : UInt8} {after : Bytes}
    (hb : buffer.length < bufferLimit) (hle : position + size + 2 ≤ buffer.length)
    (hd : buffer.drop (position + size) = first :: second :: after) (decoded : Bytes) :
    pieceRound buffer position size decoded =
      .ok (if first = Byte.cr ∧ second = Byte.lf then
        .inl (position + size + 2, decoded ++ (buffer.drop position).take size)
      else .inr .invalid) := by
  have hlimit := wordLimit_eq
  have hlong : ¬ buffer.length < saturatingSum (position + size) 2 := by
    rw [saturatingSum]
    omega
  have hend : sum (position + size) 2 = .ok (position + size + 2) := sum_eq_ok (by omega)
  rw [pieceRound, if_neg (by omega)]
  dsimp only
  rw [if_neg hlong, slice_eq_ok (by omega) (by omega), hend, ok_bind, ok_bind,
    slice_eq_ok (by omega) hle, hd, Nat.add_sub_cancel_left, Nat.add_sub_cancel_left, ok_bind]
  by_cases hcr : first = Byte.cr ∧ second = Byte.lf
  · rw [if_pos (by simp [hcr]), if_pos hcr]
    rfl
  · rw [if_neg (by simpa using hcr), if_neg hcr]
    rfl

end Piece

section Decode

variable {buffer line rest : Bytes} {position size : Nat}

/-- What the decoder comes to from a position on, behind the data so far. -/
def decoding (buffer : Bytes) : Nat × Bytes → Outcome
  | (position, decoded) => (decodeFrom position (buffer.drop position)).after decoded

/-- A piece advances the decoding. -/
theorem pieceRound_advances (hb : buffer.length < bufferLimit)
    (hs : Bytes.splitCrlf? (buffer.drop position) = some (line, rest))
    (hsize : size? line = some size) (hz : size ≠ 0) (decoded : Bytes) :
    pieceRound buffer (position + line.length + 2) size decoded =
        .ok (.inr (decoding buffer (position, decoded))) ∨
      ∃ s', pieceRound buffer (position + line.length + 2) size decoded = .ok (.inl s') ∧
        s'.1 ≤ buffer.length ∧ position < s'.1 ∧
        decoding buffer s' = decoding buffer (position, decoded) := by
  have hlen := length_line hs
  have hdrop := drop_line hs
  generalize hstart : position + line.length + 2 = start at hlen hdrop ⊢
  have hrest : rest.length = buffer.length - start := by rw [← hdrop, List.length_drop]
  rcases Nat.lt_or_ge (start + size) Numeral.wordLimit with hw | hw
  · rcases Nat.lt_or_ge buffer.length (saturatingSum (start + size) 2) with hshort | hlong
    · have hlt : rest.length < size + 2 := by
        rw [saturatingSum] at hshort
        omega
      refine Or.inl ?_
      rw [pieceRound_of_short hlen hw hshort, decoding,
        decodeFrom_of_short hs hsize hz (hstart ▸ hw) hlt, hdrop]
      rfl
    · -- All of the piece is there, so what matters is how its data ends.
      have hle : start + size + 2 ≤ buffer.length := by
        have := wordLimit_eq
        rw [saturatingSum] at hlong
        omega
      have hbehind : buffer.drop (start + size) = rest.drop size := by
        rw [← List.drop_drop, hdrop]
      obtain ⟨first, second, after, hd⟩ : ∃ first second after, rest.drop size =
          first :: second :: after := exists_cons_cons (by rw [List.length_drop]; omega)
      have hafter : buffer.drop (start + size + 2) = after := by
        rw [← List.drop_drop, hbehind, hd]
        rfl
      rw [pieceRound_of_long hb hle (hbehind.trans hd), hdrop, decoding,
        decodeFrom_of_long hs hsize hz (hstart ▸ hw) hd]
      split
      · refine Or.inr ⟨_, rfl, hle, by omega, ?_⟩
        rw [decoding, hafter, after_after, hstart]
      · exact Or.inl rfl
  · refine Or.inl ?_
    rw [pieceRound_of_beyond hw, decoding, decodeFrom_of_beyond hs hsize hz (hstart ▸ hw)]
    rfl

/-- **A round advances the decoding.** -/
theorem decodeRound_advances (hb : buffer.length < bufferLimit) (s : Nat × Bytes)
    (hp : s.1 ≤ buffer.length) :
    Advances (decodeRound buffer) (·.1 ≤ buffer.length) (buffer.length - ·.1) (decoding buffer)
      s := by
  obtain ⟨position, decoded⟩ := s
  rw [Advances, decodeRound, sliceFrom_eq_ok hp, ok_bind, crlf?_eq]
  cases hs : Bytes.splitCrlf? (buffer.drop position) with
  | none =>
    refine Or.inl ?_
    rw [decoding, decodeFrom_of_none hs, Outcome.after, List.append_nil]
    rfl
  | some p =>
    obtain ⟨line, rest⟩ := p
    have hlen := length_line hs
    have hlimit := wordLimit_eq
    have hend : sum line.length 2 = .ok (line.length + 2) := sum_eq_ok (by omega)
    have hstart : sum position (line.length + 2) = .ok (position + line.length + 2) := by
      rw [sum_eq_ok (by omega), Nat.add_assoc]
    simp only [Option.map_some, hend, ok_bind, hstart]
    rw [sum_eq_ok (by omega), ok_bind, slice_eq_ok (by omega) (by omega), ok_bind, take_line hs]
    cases hsize : size? line with
    | none =>
      refine Or.inl ?_
      rw [decoding, decodeFrom_of_size_none hs hsize]
      rfl
    | some size =>
      rcases Nat.eq_zero_or_pos size with rfl | hpos
      · refine Or.inl ?_
        rw [loop_trailer hb (by omega), drop_line hs, ok_bind, decoding,
          decodeFrom_of_last hs hsize]
        cases trailer? rest with
        | none => simp [Outcome.after]
        | some n => simp [Outcome.after]
      · obtain ⟨size, rfl⟩ := Nat.exists_eq_succ_of_ne_zero hpos.ne'
        obtain hend | ⟨s', hgo, hle, hlt, hsame⟩ :=
          pieceRound_advances hb hs hsize (Nat.succ_ne_zero size) decoded
        · exact Or.inl hend
        · exact Or.inr ⟨s', hgo, hle, by omega, hsame⟩

/-- **The decoder ends**, within the buffer and the words, with the outcome of the library. -/
theorem decodeChunked_eq (hb : buffer.length < bufferLimit) :
    decodeChunked buffer = .ok (decode buffer) := by
  have hend := loop_eq_ok (decodeRound_advances hb) (s := (0, [])) (Nat.zero_le _)
    (Nat.lt_succ_of_le (Nat.sub_le buffer.length 0))
  rw [decodeChunked, hend, decoding, decode, List.drop_zero]
  cases decodeFrom 0 buffer <;> rfl

end Decode

/-! ### Bodies of any framing -/

/-- The body at the front of a buffer. -/
def readBody (framing : Framing) (atEnd : Bool) (buffer : Bytes) : Guarded BodyOutcome :=
  match framing with
  | .empty => return .complete 0 []
  | .length n =>
    if n ≤ buffer.length then do
      return .complete n (← slice buffer 0 n)
    else if atEnd then return .complete buffer.length buffer
    else return .incomplete
  | .untilEnd => if atEnd then return .complete buffer.length buffer else return .incomplete
  | .chunked => do
    match ← decodeChunked buffer with
    | .complete n decoded => return .complete n decoded
    | .partly decoded =>
      if atEnd then return .complete buffer.length decoded else return .incomplete
    | .invalid => return .invalid

/-- **Bodies of any framing** are read within the buffer, with the outcome of the library. -/
theorem readBody_eq {buffer : Bytes} (hb : buffer.length < bufferLimit) (framing : Framing)
    (atEnd : Bool) : readBody framing atEnd buffer = .ok (Http.readBody framing atEnd buffer) := by
  cases framing with
  | empty => rfl
  | length n =>
    rw [readBody, Http.readBody]
    split
    · rename_i hn
      rw [slice_eq_ok (Nat.zero_le n) hn]
      rfl
    · split <;> rfl
  | untilEnd =>
    rw [readBody, Http.readBody]
    split <;> rfl
  | chunked =>
    rw [readBody, Http.readBody, decodeChunked_eq hb, ok_bind]
    cases decode buffer with
    | complete n decoded => rfl
    | partly decoded => cases atEnd <;> rfl
    | invalid => rfl

end HttpReplay.Checked
