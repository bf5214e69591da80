import HttpReplay.Capture.Answer

/-!
# Answers without room

A sink with room for a limited number of bytes takes the first bytes of what is written to it, no
matter in how many pieces it comes. If all pieces fit, there is room left for the next answer; if
not, the writing fails at the piece in which the room ends, and that piece decides how the failure
is reported. Only when all of them are written is the sink flushed, so a sink that cannot be flushed
takes as much of an answer as any other.

* `HttpReplay.Answer.write_of_le` writes an answer that fits;
* `HttpReplay.Answer.write_of_lt` writes one that does not;
* `HttpReplay.Answer.snd_write` – an answer is flushed once, at its end.
-/

namespace HttpReplay

namespace Answer

variable {s : Sink} {p : Piece} {room : Nat}

/-! ### Pieces -/

namespace Piece

theorem write_of_unlimited (hflush : s.flushing = none) (hroom : s.room = none) (p : Piece) :
    p.write s = (p.bytes, .ok s) := by
  rw [write, Sink.write_of_unlimited hroom]
  simp only [Sink.flush, hflush]
  split <;> rfl

theorem write_of_le (hflush : s.flushing = none) (hroom : s.room = some room)
    (h : p.bytes.length ≤ room) :
    p.write s = (p.bytes, .ok { s with room := some (room - p.bytes.length) }) := by
  rw [write, Sink.write_of_le hroom h]
  simp only [Sink.flush, hflush]
  split <;> rfl

theorem write_of_lt (hroom : s.room = some room) (h : room < p.bytes.length) :
    p.write s = (p.bytes.take room, .error (p.failure s.fault)) := by
  rw [write, Sink.write_of_lt hroom h]

end Piece

/-- Pieces that fit are all written, and the room that they leave is what is left of it. -/
theorem writePieces_of_le {pieces : List Piece} (hflush : s.flushing = none)
    (hroom : s.room = some room) (h : (pieces.flatMap (·.bytes)).length ≤ room) :
    writePieces s pieces =
      (pieces.flatMap (·.bytes),
        .ok { s with room := some (room - (pieces.flatMap (·.bytes)).length) }) := by
  induction pieces generalizing s room with
  | nil =>
    obtain ⟨limit, fault, flushing⟩ := s
    obtain rfl : limit = some room := hroom
    rfl
  | cons p pieces ih =>
    rw [List.flatMap_cons, List.length_append] at h
    rw [writePieces, Piece.write_of_le hflush hroom (by omega), List.flatMap_cons,
      List.length_append, ← Nat.sub_sub]
    have hrest := ih (s := { s with room := some (room - p.bytes.length) }) hflush rfl
      (Nat.le_sub_of_add_le' h)
    simp only [hrest]

/-- **Pieces that do not fit** are written as far as there is room, and fail at one of them. -/
theorem writePieces_of_lt {pieces : List Piece} (hflush : s.flushing = none)
    (hroom : s.room = some room) (h : room < (pieces.flatMap (·.bytes)).length) :
    ∃ p ∈ pieces, writePieces s pieces =
      ((pieces.flatMap (·.bytes)).take room, .error (p.failure s.fault)) := by
  induction pieces generalizing s room with
  | nil => cases h
  | cons p pieces ih =>
    rw [List.flatMap_cons, List.length_append] at h
    rcases Nat.lt_or_ge room p.bytes.length with hlt | hle
    · refine ⟨p, List.mem_cons_self, ?_⟩
      rw [writePieces, Piece.write_of_lt hroom hlt, List.flatMap_cons,
        List.take_append_of_le_length (Nat.le_of_lt hlt)]
    · obtain ⟨q, hq, hwrite⟩ := ih (s := { s with room := some (room - p.bytes.length) }) hflush rfl
        (Nat.sub_lt_left_of_lt_add hle h)
      refine ⟨q, List.mem_cons_of_mem p hq, ?_⟩
      rw [writePieces, Piece.write_of_le hflush hroom hle, List.flatMap_cons, List.take_append,
        List.take_of_length_le hle]
      simp only [hwrite]

theorem writePieces_of_unlimited (hflush : s.flushing = none) (hroom : s.room = none)
    (pieces : List Piece) : writePieces s pieces = (pieces.flatMap (·.bytes), .ok s) := by
  induction pieces with
  | nil => rfl
  | cons p ps ih =>
    rw [writePieces, Piece.write_of_unlimited hflush hroom]
    simp only [ih, List.flatMap_cons]

/-- Pieces in a row are written as those in front, and then the others. -/
theorem writePieces_append (s : Sink) (front back : List Piece) :
    writePieces s (front ++ back) =
      match writePieces s front with
      | (taken, .error e) => (taken, .error e)
      | (taken, .ok s) => (taken ++ (writePieces s back).1, (writePieces s back).2) := by
  induction front generalizing s with
  | nil => rfl
  | cons p front ih =>
    rw [List.cons_append, writePieces, writePieces]
    rcases p.write s with ⟨taken, e | left⟩
    · rfl
    · simp only [ih left]
      rcases writePieces left front with ⟨more, e | rest⟩
      · rfl
      · simp only [List.append_assoc]

/-! ### Whole answers -/

/-- A failure of a session whose sink has no room: in a record or around one. -/
def IsShortage (fault : IoFault) (e : SessionError) : Prop := e = .io fault ∨ e = .record fault

theorem isShortage_of_mem_pieces {fault : IoFault} {chunks : List Chunk}
    (h : p ∈ pieces chunks) : IsShortage fault (p.failure fault) := by
  rcases List.mem_append.mp h with h | h
  · obtain ⟨chunk, -, h⟩ := List.mem_flatMap.mp h
    simp only [piecesOf, List.mem_cons, List.not_mem_nil, or_false] at h
    rcases h with rfl | rfl
    · exact .inr rfl
    · exact .inl rfl
  · obtain rfl := List.mem_singleton.mp h
    exact .inl rfl

/-- A sink without a limit takes the whole answer. -/
theorem write_of_unlimited (hflush : s.flushing = none) (hroom : s.room = none)
    (chunks : List Chunk) : write s chunks = (text chunks, .ok s) :=
  writePieces_of_unlimited hflush hroom _

theorem write_of_le {chunks : List Chunk} (hflush : s.flushing = none) (hroom : s.room = some room)
    (h : (text chunks).length ≤ room) :
    write s chunks =
      (text chunks, .ok { s with room := some (room - (text chunks).length) }) :=
  writePieces_of_le hflush hroom h

theorem write_of_lt {chunks : List Chunk} (hflush : s.flushing = none) (hroom : s.room = some room)
    (h : room < (text chunks).length) :
    ∃ e, IsShortage s.fault e ∧ write s chunks = ((text chunks).take room, .error e) := by
  obtain ⟨p, hp, hwrite⟩ := writePieces_of_lt hflush hroom h
  exact ⟨p.failure s.fault, isShortage_of_mem_pieces hp, hwrite⟩

/-- **An answer is written** just if there is room for it. -/
theorem exists_write_eq_ok_iff {chunks : List Chunk} (hflush : s.flushing = none) :
    (∃ left, (write s chunks).2 = .ok left) ↔
      ∀ room, s.room = some room → (text chunks).length ≤ room := by
  cases hroom : s.room with
  | none =>
    rw [write_of_unlimited hflush hroom]
    simp
  | some room =>
    rcases Nat.lt_or_ge room (text chunks).length with hlt | hle
    · obtain ⟨e, -, hwrite⟩ := write_of_lt hflush hroom hlt
      rw [hwrite]
      refine iff_of_false (by simp) fun h => ?_
      exact Nat.not_le_of_lt hlt (h room rfl)
    · rw [write_of_le hflush hroom hle]
      refine iff_of_true ⟨_, rfl⟩ fun other h => ?_
      rwa [← Option.some.inj h]

/-! ### Flushing -/

theorem flushes_of_mem_piecesOf {c : Chunk} (h : p ∈ piecesOf c) : p.flushes = false := by
  simp only [piecesOf, List.mem_cons, List.not_mem_nil, or_false] at h
  rcases h with rfl | rfl <;> rfl

/-- Behind a piece that is not the last nothing is flushed. -/
theorem Piece.write_flushing (h : p.flushes = false) (s : Sink) (flushing : Option IoFault) :
    p.write { s with flushing } =
      ((p.write s).1, (p.write s).2.map fun left => { left with flushing }) := by
  simp only [write, Sink.write_flushing, h]
  rcases s.write p.bytes with ⟨bytes, fault | left⟩ <;> rfl

theorem writePieces_flushing {pieces : List Piece} (h : ∀ p ∈ pieces, p.flushes = false) (s : Sink)
    (flushing : Option IoFault) :
    writePieces { s with flushing } pieces =
      ((writePieces s pieces).1,
        (writePieces s pieces).2.map fun left => { left with flushing }) := by
  induction pieces generalizing s with
  | nil => rfl
  | cons p pieces ih =>
    rw [writePieces, writePieces, Piece.write_flushing (h p List.mem_cons_self)]
    rcases p.write s with ⟨bytes, e | left⟩
    · rfl
    · simp only [Except.map, ih (fun q hq => h q (List.mem_cons_of_mem p hq)) left]

/-- **An answer is flushed once**, when all of it is written. -/
theorem snd_write (s : Sink) (flushing : Option IoFault) (chunks : List Chunk) :
    (write { s with flushing } chunks).2 =
      (write { s with flushing := none } chunks).2.bind fun left =>
        ({ left with flushing } : Sink).flush.mapError .io := by
  have hfront : ∀ p ∈ chunks.flatMap piecesOf, p.flushes = false := by
    intro p hp
    obtain ⟨c, -, hp⟩ := List.mem_flatMap.mp hp
    exact flushes_of_mem_piecesOf hp
  rw [write, write, pieces, writePieces_append, writePieces_append,
    writePieces_flushing hfront s flushing, writePieces_flushing hfront s none]
  rcases writePieces s (chunks.flatMap piecesOf) with ⟨taken, e | left⟩
  · rfl
  · simp only [Except.map, writePieces, Piece.write, Sink.write_flushing]
    rcases left.write closingPiece.bytes with ⟨more, fault | last⟩
    · rfl
    · cases flushing <;> rfl

end Answer

end HttpReplay
