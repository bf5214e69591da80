import HttpReplay.Http.Body
import Mathlib.Data.List.Basic

/-!
# Bodies that still arrive

A body that has come to its end before the stream has stays as it is when more bytes arrive, and
it comes to its end with its last byte. At the end of the stream a body that has not come to its
end takes all the bytes there are. For bodies of a known length this is plain; for the chunked
coding it is an induction over the pieces.

* `HttpReplay.Http.Chunked.decodeFrom_append` and `HttpReplay.Http.Chunked.lt_of_decodeFrom_append`
  say so of the decoder, `HttpReplay.Http.readBody_append` and
  `HttpReplay.Http.lt_of_readBody_append` of every framing;
* `HttpReplay.Http.readBody_atEnd` is what the end of the stream changes.
-/

namespace HttpReplay

namespace Http.Chunked

/-! ### Lines -/

theorem isLine_nil : IsLine [] := by
  rintro a b h
  cases a <;> cases h

theorem isLine_cons {b : UInt8} {line : Bytes} :
    IsLine (b :: line) ↔ ¬ (b = Byte.cr ∧ line.head? = some Byte.lf) ∧ IsLine line := by
  constructor
  · intro h
    refine ⟨?_, fun x y hxy => h (b :: x) y (by rw [hxy, List.cons_append])⟩
    rintro ⟨rfl, hl⟩
    obtain ⟨rest, rfl⟩ := List.head?_eq_some_iff.mp hl
    exact h [] rest rfl
  · rintro ⟨hb, h⟩ (_ | ⟨x, xs⟩) y hxy
    · simp only [List.nil_append, List.cons.injEq] at hxy
      exact hb ⟨hxy.1, by rw [hxy.2]; rfl⟩
    · simp only [List.cons_append, List.cons.injEq] at hxy
      exact h xs y hxy.2

/-- Bytes without a carriage return are a line. -/
theorem isLine_of_cr_notMem {line : Bytes} (h : Byte.cr ∉ line) : IsLine line := by
  rintro a b rfl
  exact h (by simp)

end Http.Chunked

namespace Bytes

open Http.Chunked

theorem splitCrlf?_eq_some {bytes line rest : Bytes} :
    splitCrlf? bytes = some (line, rest) ↔
      bytes = line ++ Byte.cr :: Byte.lf :: rest ∧ IsLine line := by
  induction bytes generalizing line with
  | nil => simp [splitCrlf?]
  | cons b bytes ih =>
    by_cases hb : b = Byte.cr ∧ bytes.head? = some Byte.lf
    · -- The line ends here, so it is empty.
      obtain ⟨rfl, hl⟩ := hb
      obtain ⟨after, rfl⟩ := List.head?_eq_some_iff.mp hl
      rw [splitCrlf?, if_pos ⟨rfl, rfl⟩, List.tail_cons]
      rcases line with _ | ⟨c, _ | ⟨d, line⟩⟩
      · simp [isLine_nil]
      · simp [show Byte.lf ≠ Byte.cr by decide]
      · simp only [Option.some.injEq, Prod.mk.injEq, reduceCtorEq, false_and, List.cons_append,
          List.cons.injEq, false_iff, not_and]
        rintro ⟨rfl, rfl, -⟩ h
        exact h [] line rfl
    · rw [splitCrlf?, if_neg hb]
      rcases line with _ | ⟨c, line⟩
      · simp only [Option.map_eq_some_iff, Prod.mk.injEq, reduceCtorEq, false_and, and_false,
          exists_const, List.nil_append, List.cons.injEq, false_iff, not_and]
        rintro ⟨rfl, rfl⟩
        exact absurd ⟨rfl, rfl⟩ hb
      · simp only [Option.map_eq_some_iff, Prod.mk.injEq, List.cons.injEq, List.cons_append,
          isLine_cons, Prod.exists]
        constructor
        · rintro ⟨l, r, h, ⟨rfl, rfl⟩, rfl⟩
          obtain ⟨rfl, hl⟩ := ih.mp h
          refine ⟨⟨rfl, rfl⟩, ?_, hl⟩
          rintro ⟨rfl, hh⟩
          refine hb ⟨rfl, ?_⟩
          obtain ⟨t, rfl⟩ := List.head?_eq_some_iff.mp hh
          rfl
        · rintro ⟨⟨rfl, h⟩, -, hl⟩
          exact ⟨line, rest, ih.mpr ⟨h, hl⟩, ⟨rfl, rfl⟩, rfl⟩

theorem splitCrlf?_append {bytes line rest : Bytes} (h : splitCrlf? bytes = some (line, rest))
    (later : Bytes) : splitCrlf? (bytes ++ later) = some (line, rest ++ later) := by
  obtain ⟨rfl, hl⟩ := splitCrlf?_eq_some.mp h
  exact splitCrlf?_eq_some.mpr ⟨by simp, hl⟩

theorem length_of_splitCrlf? {bytes line rest : Bytes} (h : splitCrlf? bytes = some (line, rest)) :
    bytes.length = line.length + 2 + rest.length := by
  rw [eq_append_of_splitCrlf? h]
  simp only [List.length_append, List.length_cons]
  omega

theorem splitCrlf?_eq_none {bytes : Bytes} (h : splitCrlf? bytes = none) : IsLine bytes := by
  induction bytes with
  | nil => exact isLine_nil
  | cons b bytes ih =>
    rw [splitCrlf?] at h
    split at h
    · cases h
    · rename_i hb
      exact isLine_cons.mpr ⟨hb, ih (Option.map_eq_none_iff.mp h)⟩

/-- A line that is not there ends in what comes later. -/
theorem length_lt_of_splitCrlf?_append {bytes later line rest : Bytes}
    (hn : splitCrlf? bytes = none) (h : splitCrlf? (bytes ++ later) = some (line, rest)) :
    rest.length < later.length := by
  by_contra hle
  have he := eq_append_of_splitCrlf? h
  have hlen := congrArg List.length he
  simp only [List.length_append, List.length_cons] at hlen
  have hpre : line ++ [Byte.cr, Byte.lf] <+: bytes := by
    have hwhole : line ++ [Byte.cr, Byte.lf] <+: bytes ++ later := ⟨rest, by simp [he]⟩
    refine List.prefix_of_prefix_length_le hwhole (List.prefix_append _ _) ?_
    simp only [List.length_append, List.length_cons, List.length_nil]
    omega
  obtain ⟨t, rfl⟩ := hpre
  exact splitCrlf?_eq_none hn line t (by simp)

end Bytes

namespace Http

namespace Chunked

/-! ### The lines after the last piece -/

theorem trailer?_of_none {bytes : Bytes} (h : Bytes.splitCrlf? bytes = none) :
    trailer? bytes = none := by
  rw [trailer?]
  split
  · rfl
  · rename_i hs
    rw [h] at hs
    cases hs

theorem trailer?_of_some {bytes line rest : Bytes}
    (h : Bytes.splitCrlf? bytes = some (line, rest)) :
    trailer? bytes =
      if line = [] then some 2 else (trailer? rest).map (line.length + 2 + ·) := by
  rw [trailer?]
  split
  · rename_i hs
    rw [h] at hs
    cases hs
  · rename_i l r hs
    rw [h] at hs
    cases hs
    rfl

theorem trailer?_bounds {bytes : Bytes} {n : Nat} (h : trailer? bytes = some n) :
    2 ≤ n ∧ n ≤ bytes.length := by
  fun_induction trailer? bytes generalizing n with
  | case1 => cases h
  | case2 bytes rest hs =>
    cases h
    exact ⟨Nat.le_refl 2, by have := Bytes.length_of_splitCrlf? hs; omega⟩
  | case3 bytes line rest hs hl ih =>
    obtain ⟨m, hm, rfl⟩ := Option.map_eq_some_iff.mp h
    have hb := ih hm
    have := Bytes.length_of_splitCrlf? hs
    exact ⟨by omega, by omega⟩

theorem trailer?_append {bytes : Bytes} {n : Nat} (h : trailer? bytes = some n) (later : Bytes) :
    trailer? (bytes ++ later) = some n := by
  fun_induction trailer? bytes generalizing n with
  | case1 => cases h
  | case2 bytes rest hs =>
    rw [trailer?_of_some (Bytes.splitCrlf?_append hs later), if_pos rfl, h]
  | case3 bytes line rest hs hl ih =>
    obtain ⟨m, hm, rfl⟩ := Option.map_eq_some_iff.mp h
    rw [trailer?_of_some (Bytes.splitCrlf?_append hs later), if_neg hl, ih hm, Option.map_some]

theorem lt_of_trailer?_append {bytes later : Bytes} {n : Nat} (hn : trailer? bytes = none)
    (h : trailer? (bytes ++ later) = some n) : bytes.length < n := by
  fun_induction trailer? bytes generalizing n with
  | case1 bytes hs =>
    cases hs' : Bytes.splitCrlf? (bytes ++ later) with
    | none =>
      rw [trailer?_of_none hs'] at h
      cases h
    | some p =>
      obtain ⟨line, rest⟩ := p
      have hlt := Bytes.length_lt_of_splitCrlf?_append hs hs'
      have hlen := Bytes.length_of_splitCrlf? hs'
      rw [List.length_append] at hlen
      rw [trailer?_of_some hs'] at h
      split at h
      · rename_i hl
        subst hl
        cases h
        simp only [List.length_nil] at hlen
        omega
      · obtain ⟨m, hm, rfl⟩ := Option.map_eq_some_iff.mp h
        have := (trailer?_bounds hm).1
        omega
  | case2 => cases hn
  | case3 bytes line rest hs hl ih =>
    rw [trailer?_of_some (Bytes.splitCrlf?_append hs later), if_neg hl] at h
    obtain ⟨m, hm, rfl⟩ := Option.map_eq_some_iff.mp h
    have := ih (Option.map_eq_none_iff.mp hn) hm
    have := Bytes.length_of_splitCrlf? hs
    omega

/-! ### One piece -/

section Piece

variable {position n : Nat} {bytes line rest : Bytes}

theorem decodeFrom_of_none (h : Bytes.splitCrlf? bytes = none) :
    decodeFrom position bytes = .partly [] := by
  rw [decodeFrom]
  split
  · rfl
  · rename_i hs
    rw [h] at hs
    cases hs

theorem decodeFrom_of_size_none (h : Bytes.splitCrlf? bytes = some (line, rest))
    (hs : size? line = none) : decodeFrom position bytes = .invalid := by
  rw [decodeFrom]
  split
  · rename_i hl
    rw [h] at hl
    cases hl
  · rename_i l r hl
    rw [h] at hl
    cases hl
    rw [hs]

/-- The last piece. -/
theorem decodeFrom_of_last (h : Bytes.splitCrlf? bytes = some (line, rest))
    (hs : size? line = some 0) :
    decodeFrom position bytes =
      match trailer? rest with
      | none => .partly []
      | some n => .complete (position + line.length + 2 + n) [] := by
  rw [decodeFrom]
  split
  · rename_i hl
    rw [h] at hl
    cases hl
  · rename_i l r hl
    rw [h] at hl
    cases hl
    rw [hs]
    rfl

/-- A piece with data. -/
theorem decodeFrom_of_piece (h : Bytes.splitCrlf? bytes = some (line, rest))
    (hs : size? line = some n) (hn : n ≠ 0) :
    decodeFrom position bytes =
      if Numeral.wordLimit ≤ position + line.length + 2 + n then .invalid
      else
        match rest.drop n with
        | first :: second :: after =>
          if first = Byte.cr ∧ second = Byte.lf then
            (decodeFrom (position + line.length + 2 + n + 2) after).after (rest.take n)
          else .invalid
        | _ => .partly (rest.take n) := by
  rw [decodeFrom]
  split
  · rename_i hl
    rw [h] at hl
    cases hl
  · rename_i l r hl
    rw [h] at hl
    cases hl
    rw [hs]
    split
    · rename_i hm
      cases hm
    · rename_i hm
      cases hm
      exact absurd rfl hn
    · rename_i m _ hm
      cases hm
      rcases List.drop n rest with _ | ⟨b, _ | ⟨c, t⟩⟩ <;> rfl

/-- A piece that reaches beyond all positions. -/
theorem decodeFrom_of_beyond (h : Bytes.splitCrlf? bytes = some (line, rest))
    (hs : size? line = some n) (hn : n ≠ 0)
    (hw : Numeral.wordLimit ≤ position + line.length + 2 + n) :
    decodeFrom position bytes = .invalid := by
  rw [decodeFrom_of_piece h hs hn, if_pos hw]

/-- A piece with two bytes behind its data. -/
theorem decodeFrom_of_long {first second : UInt8} {after : Bytes}
    (h : Bytes.splitCrlf? bytes = some (line, rest)) (hs : size? line = some n) (hn : n ≠ 0)
    (hw : position + line.length + 2 + n < Numeral.wordLimit)
    (hd : rest.drop n = first :: second :: after) :
    decodeFrom position bytes =
      if first = Byte.cr ∧ second = Byte.lf then
        (decodeFrom (position + line.length + 2 + n + 2) after).after (rest.take n)
      else .invalid := by
  rw [decodeFrom_of_piece h hs hn, if_neg (Nat.not_le.mpr hw), hd]

end Piece

/-! ### Whole bodies -/

theorem after_eq_complete {o : Outcome} {data decoded : Bytes} {n : Nat} :
    o.after data = .complete n decoded ↔ ∃ d, o = .complete n d ∧ decoded = data ++ d := by
  cases o <;> simp [Outcome.after, eq_comm]

theorem decodeFrom_bounds {position n : Nat} {bytes decoded : Bytes}
    (h : decodeFrom position bytes = .complete n decoded) :
    position + 2 ≤ n ∧ n ≤ position + bytes.length := by
  fun_induction decodeFrom position bytes generalizing n decoded with
  | case4 position bytes line rest hs hz m ht =>
    cases h
    have := trailer?_bounds ht
    have := Bytes.length_of_splitCrlf? hs
    omega
  | case6 position bytes line rest hs size hz hsz start hw first second after hd hcr =>
    rename_i ih
    obtain ⟨d, hd', -⟩ := after_eq_complete.mp h
    have hb := ih hd'
    have hlen := Bytes.length_of_splitCrlf? hs
    have hdrop := congrArg List.length hd
    simp only [List.length_drop, List.length_cons] at hdrop
    omega
  | _ => cases h

/-- **A body that is there, or is none, stays so.** -/
theorem decodeFrom_append {position : Nat} {bytes : Bytes}
    (h : ∀ d, decodeFrom position bytes ≠ .partly d) (later : Bytes) :
    decodeFrom position (bytes ++ later) = decodeFrom position bytes := by
  fun_induction decodeFrom position bytes with
  | case1 => exact absurd rfl (h [])
  | case2 position bytes line rest hs hz =>
    exact decodeFrom_of_size_none (Bytes.splitCrlf?_append hs later) hz
  | case3 => exact absurd rfl (h [])
  | case4 position bytes line rest hs hz m ht =>
    rw [decodeFrom_of_last (Bytes.splitCrlf?_append hs later) hz, trailer?_append ht later]
  | case5 position bytes line rest hs size hz hsz start hw =>
    exact decodeFrom_of_beyond (Bytes.splitCrlf?_append hs later) hsz hz hw
  | case6 position bytes line rest hs size hz hsz start hw first second after hd hcr =>
    rename_i ih
    -- The piece and its end are there, so only the rest of the body may be open.
    have hle : size ≤ rest.length := by
      have := congrArg List.length hd
      simp only [List.length_drop, List.length_cons] at this
      omega
    rw [decodeFrom_of_long (Bytes.splitCrlf?_append hs later) hsz hz (Nat.not_le.mp hw)
      (by rw [List.drop_append_of_le_length hle, hd, List.cons_append, List.cons_append]),
      if_pos hcr, List.take_append_of_le_length hle]
    refine congrArg (Outcome.after (rest.take size)) (ih ?_)
    intro d hp
    exact h (rest.take size ++ d) (by rw [hp]; rfl)
  | case7 position bytes line rest hs size hz hsz start hw first second after hd hcr =>
    have hle : size ≤ rest.length := by
      have := congrArg List.length hd
      simp only [List.length_drop, List.length_cons] at this
      omega
    rw [decodeFrom_of_long (Bytes.splitCrlf?_append hs later) hsz hz (Nat.not_le.mp hw)
      (by rw [List.drop_append_of_le_length hle, hd]; rfl), if_neg hcr]
  | case8 => exact absurd rfl (h _)

/-- A body that is found goes beyond bytes in which its first line does not end. -/
theorem lt_of_decodeFrom_of_none {position n : Nat} {bytes later decoded : Bytes}
    (hs : Bytes.splitCrlf? bytes = none)
    (h : decodeFrom position (bytes ++ later) = .complete n decoded) :
    position + bytes.length < n := by
  cases hs' : Bytes.splitCrlf? (bytes ++ later) with
  | none =>
    rw [decodeFrom_of_none hs'] at h
    cases h
  | some p =>
    obtain ⟨line, rest⟩ := p
    -- The first line ends behind the bytes, and the body behind its first line.
    have hlt := Bytes.length_lt_of_splitCrlf?_append hs hs'
    have hlen := Bytes.length_of_splitCrlf? hs'
    rw [List.length_append] at hlen
    rcases hsz : size? line with _ | _ | size
    · rw [decodeFrom_of_size_none hs' hsz] at h
      cases h
    · rw [decodeFrom_of_last hs' hsz] at h
      split at h
      · cases h
      · rename_i m hm
        cases h
        omega
    · rw [decodeFrom_of_piece hs' hsz (Nat.succ_ne_zero size)] at h
      split at h
      · cases h
      · split at h
        · split at h
          · obtain ⟨d, hd, -⟩ := after_eq_complete.mp h
            have := decodeFrom_bounds hd
            omega
          · cases h
        · cases h

/-- A body that is found goes beyond bytes in which its first piece, or the end behind it, is not
there. -/
theorem lt_of_decodeFrom_of_short {position size n : Nat} {bytes line rest later decoded : Bytes}
    (hs : Bytes.splitCrlf? bytes = some (line, rest)) (hsz : size? line = some size)
    (hz : size ≠ 0) (hshort : rest.length < size + 2)
    (h : decodeFrom position (bytes ++ later) = .complete n decoded) :
    position + bytes.length < n := by
  have hlen := Bytes.length_of_splitCrlf? hs
  rw [decodeFrom_of_piece (Bytes.splitCrlf?_append hs later) hsz hz] at h
  split at h
  · cases h
  · split at h
    · split at h
      · obtain ⟨d, hd, -⟩ := after_eq_complete.mp h
        have := decodeFrom_bounds hd
        omega
      · cases h
    · cases h

theorem length_lt_of_drop {size : Nat} {rest : Bytes}
    (h : ∀ first second after, rest.drop size = first :: second :: after → False) :
    rest.length < size + 2 := by
  by_contra hle
  have hlen := List.length_drop (l := rest) (i := size)
  rcases hdrop : rest.drop size with _ | ⟨first, _ | ⟨second, after⟩⟩
  · rw [hdrop, List.length_nil] at hlen
    omega
  · rw [hdrop, List.length_singleton] at hlen
    omega
  · exact h first second after hdrop

/-- **A body ends with its last byte**: bytes that end before the body does end before its end. -/
theorem lt_of_decodeFrom_append {position n : Nat} {bytes later d decoded : Bytes}
    (hp : decodeFrom position bytes = .partly d)
    (h : decodeFrom position (bytes ++ later) = .complete n decoded) :
    position + bytes.length < n := by
  fun_induction decodeFrom position bytes generalizing d decoded with
  | case1 position bytes hs => exact lt_of_decodeFrom_of_none hs h
  | case2 => cases hp
  | case3 position bytes line rest hs hz ht =>
    rw [decodeFrom_of_last (Bytes.splitCrlf?_append hs later) hz] at h
    split at h
    · cases h
    · rename_i m hm
      cases h
      have := lt_of_trailer?_append ht hm
      have := Bytes.length_of_splitCrlf? hs
      omega
  | case4 => cases hp
  | case5 => cases hp
  | case6 position bytes line rest hs size hz hsz start hw first second after hd hcr =>
    rename_i ih
    have hlen := congrArg List.length hd
    simp only [List.length_drop, List.length_cons] at hlen
    rw [decodeFrom_of_long (Bytes.splitCrlf?_append hs later) hsz hz (Nat.not_le.mp hw)
      (by rw [List.drop_append_of_le_length (by omega), hd, List.cons_append, List.cons_append]),
      if_pos hcr] at h
    obtain ⟨d', hd', -⟩ := after_eq_complete.mp h
    cases ho : decodeFrom (start + size + 2) after with
    | partly d'' =>
      have := ih ho hd'
      have := Bytes.length_of_splitCrlf? hs
      omega
    | complete m d'' =>
      rw [ho] at hp
      cases hp
    | invalid =>
      rw [ho] at hp
      cases hp
  | case7 => cases hp
  | case8 position bytes line rest hs size hz hsz start hw =>
    rename_i hd
    exact lt_of_decodeFrom_of_short hs hsz hz (length_lt_of_drop hd) h

end Chunked

/-! ### Bodies of any framing -/

theorem length_le_of_readBody {framing : Framing} {atEnd : Bool} {bytes decoded : Bytes} {n : Nat}
    (h : readBody framing atEnd bytes = .complete n decoded) : n ≤ bytes.length := by
  cases framing with
  | empty =>
    cases h
    exact Nat.zero_le _
  | length size =>
    simp only [readBody] at h
    split at h
    · cases h
      assumption
    · split at h <;> cases h
      exact Nat.le_refl _
  | untilEnd =>
    simp only [readBody] at h
    split at h <;> cases h
    exact Nat.le_refl _
  | chunked =>
    simp only [readBody] at h
    split at h
    · rename_i hd
      cases h
      have := (Chunked.decodeFrom_bounds hd).2
      omega
    · split at h <;> cases h
      exact Nat.le_refl _
    · cases h

/-- **A body that has come to its end**, or is none, does not depend on what comes later, nor on
whether anything comes. -/
theorem readBody_append {framing : Framing} {bytes : Bytes}
    (h : readBody framing false bytes ≠ .incomplete) (atEnd : Bool) (later : Bytes) :
    readBody framing atEnd (bytes ++ later) = readBody framing false bytes := by
  cases framing with
  | empty => rfl
  | length size =>
    simp only [readBody] at h ⊢
    split at h
    · rename_i hle
      rw [if_pos hle, if_pos (by rw [List.length_append]; omega),
        List.take_append_of_le_length hle]
    · exact absurd rfl h
  | untilEnd => exact absurd rfl h
  | chunked =>
    have hne : ∀ d, Chunked.decode bytes ≠ .partly d := by
      intro d hd
      exact h (by simp only [readBody, hd]; rfl)
    simp only [readBody, Chunked.decode, Chunked.decodeFrom_append hne later]
    cases hd : Chunked.decodeFrom 0 bytes with
    | complete n d => rfl
    | partly d => exact absurd hd (hne d)
    | invalid => rfl

/-- **A body comes to its end with its last byte.** -/
theorem lt_of_readBody_append {framing : Framing} {bytes later decoded : Bytes} {n : Nat}
    (hi : readBody framing false bytes = .incomplete)
    (h : readBody framing false (bytes ++ later) = .complete n decoded) : bytes.length < n := by
  cases framing with
  | empty => cases hi
  | length size =>
    simp only [readBody] at hi h
    split at hi
    · cases hi
    · split at h
      · cases h
        omega
      · cases h
  | untilEnd => cases h
  | chunked =>
    simp only [readBody] at hi h
    split at hi
    · cases hi
    · rename_i d hd
      split at h
      · rename_i hd'
        cases h
        have := Chunked.lt_of_decodeFrom_append hd hd'
        omega
      · cases h
      · cases h
    · cases hi

/-- At the end of the stream a body is what it was before, or else all that there is. -/
theorem readBody_atEnd {framing : Framing} {bytes decoded : Bytes} {n : Nat}
    (h : readBody framing true bytes = .complete n decoded) :
    readBody framing false bytes = .complete n decoded ∨
      readBody framing false bytes = .incomplete ∧ n = bytes.length := by
  by_cases hi : readBody framing false bytes = .incomplete
  · refine Or.inr ⟨hi, ?_⟩
    cases framing with
    | empty => cases hi
    | length size =>
      simp only [readBody] at hi h
      split at hi
      · cases hi
      · rename_i hlt
        rw [if_neg hlt] at h
        cases h
        rfl
    | untilEnd =>
      cases h
      rfl
    | chunked =>
      simp only [readBody] at hi h
      cases hd : Chunked.decode bytes with
      | complete m d => simp [hd] at hi
      | partly d =>
        rw [hd] at h
        cases h
        rfl
      | invalid => simp [hd] at hi
  · have := readBody_append hi true []
    rw [List.append_nil] at this
    exact Or.inl (this ▸ h)

end Http

end HttpReplay
