import HttpReplay.Proofs.Http.Bodies
import HttpReplay.Proofs.Text.Numerals

/-!
# The chunked format

The decoder of the chunked coding finds where a body ends, in bytes that may hold anything. The
format says the same by construction: a body is taken apart into its pieces and what follows the
last one (`HttpReplay.Http.Chunked.Body`), and each byte that it puts on the wire is marked as data
or not, so that it is plain what the data is and how much of it a first part of the wire shows.

* `HttpReplay.Http.Chunked.encodes_iff` says that such bodies are those of the format that the
  decoder's module states as a relation;
* `HttpReplay.Http.Chunked.decodeFrom_of_encodes` is completeness, and
  `HttpReplay.Http.Chunked.encodes_of_decodeFrom` is soundness;
* `HttpReplay.Http.Chunked.decodeFrom_take` is what the decoder makes of a body that is cut short;
* `HttpReplay.Http.Chunked.decode_format` puts the three together, and
  `HttpReplay.Http.Chunked.decode_overlong` is a body so long that its beginning is refused.
-/

namespace HttpReplay.Http.Chunked

/-! ### Size lines -/

/-- **A size line** names a size: no line ends within it, and what stands before the first semicolon
is, without the white space around it, a word in hexadecimal digits. -/
def IsSizeLine (line : Bytes) (n : Nat) : Prop :=
  IsLine line ∧ ∃ text, Bytes.text? (line.takeWhile (· != Byte.semicolon)) = some text ∧
    Numeral.IsWord 16 (Text.trim text.toList) n

theorem isSizeLine_iff {line : Bytes} {n : Nat} :
    IsSizeLine line n ↔ IsLine line ∧ size? line = some n := by
  refine and_congr_right fun _ => ?_
  rw [size?, Option.bind_eq_some_iff]
  refine exists_congr fun text => and_congr_right fun _ => ?_
  exact Numeral.readWord?_eq_some.symm

/-! ### Lines with their ends -/

section Lines

variable {line rest : Bytes} {k : Nat}

theorem withEnd_append (line rest : Bytes) :
    withEnd line ++ rest = line ++ Byte.cr :: Byte.lf :: rest := by
  simp [withEnd]

theorem length_withEnd (line : Bytes) : (withEnd line).length = line.length + 2 := by
  simp [withEnd]

theorem splitCrlf?_withEnd (h : IsLine line) (rest : Bytes) :
    Bytes.splitCrlf? (withEnd line ++ rest) = some (line, rest) :=
  Bytes.splitCrlf?_eq_some.mpr ⟨withEnd_append line rest, h⟩

/-- A line of which the end is cut off is none. -/
theorem splitCrlf?_take_of_lt (h : IsLine line) (hk : k < line.length + 2) :
    Bytes.splitCrlf? ((withEnd line ++ rest).take k) = none := by
  cases hs : Bytes.splitCrlf? ((withEnd line ++ rest).take k) with
  | none => rfl
  | some p =>
    exfalso
    obtain ⟨l, r⟩ := p
    have hwhole := Bytes.splitCrlf?_append hs ((withEnd line ++ rest).drop k)
    rw [List.take_append_drop, splitCrlf?_withEnd h] at hwhole
    have hlen := Bytes.length_of_splitCrlf? hs
    have hline : line = l := congrArg Prod.fst (Option.some.inj hwhole)
    rw [List.length_take, ← hline] at hlen
    omega

/-- A line of which the end is there is found, and what is cut off is cut off behind it. -/
theorem splitCrlf?_take_of_le (h : IsLine line) (hk : line.length + 2 ≤ k) :
    Bytes.splitCrlf? ((withEnd line ++ rest).take k) =
      some (line, rest.take (k - (line.length + 2))) := by
  rw [List.take_append, length_withEnd, List.take_of_length_le (by rwa [length_withEnd]),
    splitCrlf?_withEnd h]

/-- Of a piece that may be cut short, its data. -/
theorem take_withEnd (data rest : Bytes) (k : Nat) :
    ((withEnd data ++ rest).take k).take data.length = data.take k := by
  rw [withEnd_append, List.take_take, List.take_append_of_le_length (Nat.min_le_left _ _),
    Nat.min_comm, ← List.take_take, List.take_length]

end Lines

/-! ### The lines after the last piece -/

/-- The lines after the last piece with their ends, and the empty line. -/
def trailerOf (lines : List Bytes) : Bytes := lines.flatMap withEnd ++ withEnd []

theorem trailerOf_cons (line : Bytes) (lines : List Bytes) :
    trailerOf (line :: lines) = withEnd line ++ trailerOf lines := by
  rw [trailerOf, List.flatMap_cons, List.append_assoc, trailerOf]

theorem trailer_iff {bytes : Bytes} :
    Trailer bytes ↔
      ∃ lines, (∀ line ∈ lines, line ≠ [] ∧ IsLine line) ∧ trailerOf lines = bytes := by
  constructor
  · intro h
    induction h with
    | empty => exact ⟨[], by simp, rfl⟩
    | @line line rest hne hl _ ih =>
      obtain ⟨lines, hlines, rfl⟩ := ih
      exact ⟨line :: lines, List.forall_mem_cons.mpr ⟨⟨hne, hl⟩, hlines⟩, trailerOf_cons _ _⟩
  · rintro ⟨lines, hlines, rfl⟩
    induction lines with
    | nil => exact .empty
    | cons line lines ih =>
      obtain ⟨⟨hne, hl⟩, hlines⟩ := List.forall_mem_cons.mp hlines
      rw [trailerOf_cons]
      exact .line hne hl (ih hlines)

/-- The lines after the last piece are found whatever stands behind them. -/
theorem trailer?_of_trailer {bytes : Bytes} (h : Trailer bytes) (rest : Bytes) :
    trailer? (bytes ++ rest) = some bytes.length := by
  induction h with
  | empty => rw [trailer?_of_some (splitCrlf?_withEnd isLine_nil rest), if_pos rfl]; rfl
  | @line line after hne hl _ ih =>
    rw [List.append_assoc, trailer?_of_some (splitCrlf?_withEnd hl _), if_neg hne, ih,
      Option.map_some, List.length_append, length_withEnd]

/-- What is found are such lines. -/
theorem trailer_of_trailer? {bytes : Bytes} {n : Nat} (h : trailer? bytes = some n) :
    Trailer (bytes.take n) := by
  fun_induction trailer? bytes generalizing n with
  | case1 => cases h
  | case2 bytes rest hs =>
    cases h
    rw [Bytes.eq_append_of_splitCrlf? hs]
    exact .empty
  | case3 bytes line rest hs hl ih =>
    obtain ⟨m, hm, rfl⟩ := Option.map_eq_some_iff.mp h
    obtain ⟨rfl, hline⟩ := Bytes.splitCrlf?_eq_some.mp hs
    rw [← withEnd_append, ← length_withEnd, List.take_length_add_append]
    exact .line hl hline (ih hm)

/-- Lines that are cut short are not found. -/
theorem trailer?_take {bytes : Bytes} (h : Trailer bytes) {k : Nat} (hk : k < bytes.length) :
    trailer? (bytes.take k) = none := by
  cases ht : trailer? (bytes.take k) with
  | none => rfl
  | some n =>
    exfalso
    have hwhole := trailer?_append ht (bytes.drop k)
    have hfound := trailer?_of_trailer h []
    rw [List.append_nil] at hfound
    rw [List.take_append_drop, hfound] at hwhole
    have := (trailer?_bounds ht).2
    cases hwhole
    rw [List.length_take] at this
    omega

/-! ### Soundness and completeness -/

/-- A piece that is all there is taken off the front. -/
theorem decodeFrom_piece {line data : Bytes} (hl : IsLine line)
    (hsize : size? line = some data.length) (hne : data ≠ []) (wire : Bytes) {position : Nat}
    (hw : position + line.length + 2 + data.length < Numeral.wordLimit) :
    decodeFrom position (withEnd line ++ withEnd data ++ wire) =
      (decodeFrom (position + line.length + 2 + data.length + 2) wire).after data := by
  have hpos : data.length ≠ 0 := List.length_eq_zero_iff.not.mpr hne
  rw [List.append_assoc, withEnd_append data,
    decodeFrom_of_long (splitCrlf?_withEnd hl _) hsize hpos hw List.drop_left, if_pos ⟨rfl, rfl⟩,
    List.take_left]

/-- **Completeness**: a body is decoded to its data, and what stands behind it is left. The
position says how far the lengths may go. -/
theorem decodeFrom_of_encodes {wire data : Bytes} (h : Encodes wire data) (rest : Bytes)
    {position : Nat} (hlen : position + wire.length ≤ Numeral.wordLimit) :
    decodeFrom position (wire ++ rest) = .complete (position + wire.length) data := by
  induction h generalizing position with
  | @last line trailer hl hsize ht =>
    rw [List.append_assoc, decodeFrom_of_last (splitCrlf?_withEnd hl _) hsize,
      trailer?_of_trailer ht, List.length_append, length_withEnd]
    simp only [Nat.add_assoc]
  | @piece line data wire after hl hsize hne _ ih =>
    simp only [List.length_append, length_withEnd] at hlen ⊢
    rw [List.append_assoc (withEnd line ++ withEnd data),
      decodeFrom_piece hl hsize hne _ (by omega), ih (by omega), Outcome.after]
    refine congrArg (Outcome.complete · (data ++ after)) ?_
    omega

/-- **Soundness**: what is decoded is a body with that data. -/
theorem encodes_of_decodeFrom {position n : Nat} {bytes decoded : Bytes}
    (h : decodeFrom position bytes = .complete n decoded) :
    Encodes (bytes.take (n - position)) decoded := by
  fun_induction decodeFrom position bytes generalizing n decoded with
  | case4 position bytes line rest hs hz m ht =>
    cases h
    obtain ⟨rfl, hl⟩ := Bytes.splitCrlf?_eq_some.mp hs
    have hn : position + line.length + 2 + m - position = (withEnd line).length + m := by
      rw [length_withEnd]
      omega
    rw [hn, ← withEnd_append, List.take_length_add_append]
    exact .last hl hz (trailer_of_trailer? ht)
  | case6 position bytes line rest hs size hz hsz start hw first second after hd hcr =>
    rename_i ih
    obtain ⟨d, hd', rfl⟩ := after_eq_complete.mp h
    obtain ⟨rfl, rfl⟩ := hcr
    obtain ⟨rfl, hl⟩ := Bytes.splitCrlf?_eq_some.mp hs
    have hbounds := decodeFrom_bounds hd'
    have hsize : size = (rest.take size).length := by
      have := congrArg List.length hd
      simp only [List.length_drop, List.length_cons] at this
      rw [List.length_take]
      omega
    have hrest : rest = withEnd (rest.take size) ++ after := by
      rw [withEnd_append, ← hd, List.take_append_drop]
    have hn : n - position = (withEnd line ++ withEnd (rest.take size)).length +
        (n - (start + size + 2)) := by
      rw [List.length_append, length_withEnd, length_withEnd]
      omega
    rw [← withEnd_append, hrest, ← List.append_assoc, ← hrest, hn, List.take_length_add_append]
    refine .piece hl (hsize ▸ hsz) ?_ (ih hd')
    rintro he
    rw [he] at hsize
    exact hz hsize
  | _ => cases h

/-! ### Bodies taken apart -/

/-- **A piece**: its size line and as many bytes of data. -/
structure Piece where
  line : Bytes
  data : Bytes
  isSizeLine : IsSizeLine line data.length
  data_ne_nil : data ≠ []

/-- **A body**: its pieces, the size line of the last one, which is empty, and the lines behind. -/
structure Body where
  pieces : List Piece
  last : Bytes
  trailer : List Bytes
  isSizeLine : IsSizeLine last 0
  isTrailer : ∀ line ∈ trailer, line ≠ [] ∧ IsLine line

/-- Bytes that are data, or are none. -/
def mark (isData : Bool) (bytes : Bytes) : List (UInt8 × Bool) := bytes.map (·, isData)

/-- The bytes that are marked as data. -/
def dataOf (marked : List (UInt8 × Bool)) : Bytes := (marked.filter (·.2)).map (·.1)

/-- The bytes of a piece. -/
def Piece.marked (p : Piece) : List (UInt8 × Bool) :=
  mark false (withEnd p.line) ++ mark true p.data ++ mark false (withEnd [])

namespace Body

/-- **The bytes of a body**, of which those are marked that are data. -/
def marked (b : Body) : List (UInt8 × Bool) :=
  b.pieces.flatMap Piece.marked ++ mark false (withEnd b.last ++ trailerOf b.trailer)

/-- What the body puts on the wire. -/
def wire (b : Body) : Bytes := b.marked.map (·.1)

/-- Its data. -/
def data (b : Body) : Bytes := dataOf b.marked

/-- The data among the first bytes of the wire. -/
def dataWithin (b : Body) (k : Nat) : Bytes := dataOf (b.marked.take k)

end Body

section Marks

variable {marks marks' : List (UInt8 × Bool)} {bytes : Bytes} {k : Nat} {isData : Bool}

@[simp] theorem map_fst_mark (isData : Bool) (bytes : Bytes) :
    (mark isData bytes).map (·.1) = bytes := by
  simp [mark, Function.comp_def]

@[simp] theorem length_mark (isData : Bool) (bytes : Bytes) :
    (mark isData bytes).length = bytes.length :=
  List.length_map _

theorem take_mark (isData : Bool) (bytes : Bytes) (k : Nat) :
    (mark isData bytes).take k = mark isData (bytes.take k) :=
  List.map_take.symm

theorem dataOf_append (marks marks' : List (UInt8 × Bool)) :
    dataOf (marks ++ marks') = dataOf marks ++ dataOf marks' := by
  simp [dataOf]

@[simp] theorem dataOf_mark_true (bytes : Bytes) : dataOf (mark true bytes) = bytes := by
  simp [dataOf, mark, List.filter_map, Function.comp_def]

@[simp] theorem dataOf_mark_false (bytes : Bytes) : dataOf (mark false bytes) = [] := by
  simp [dataOf, mark, List.filter_map, Function.comp_def]

end Marks

section Bodies

variable {b : Body} {p : Piece} {k position : Nat}

theorem Piece.map_fst_marked (p : Piece) :
    p.marked.map (·.1) = withEnd p.line ++ withEnd p.data := by
  simp [Piece.marked, withEnd]

theorem Piece.length_marked (p : Piece) :
    p.marked.length = p.line.length + 2 + (p.data.length + 2) := by
  simp [Piece.marked, length_withEnd]

@[simp] theorem Piece.dataOf_marked (p : Piece) : dataOf p.marked = p.data := by
  simp [Piece.marked, dataOf_append]

/-- The data that the first bytes of a piece show. -/
theorem Piece.dataOf_take (p : Piece) (k : Nat) :
    dataOf (p.marked.take k) = p.data.take (k - (p.line.length + 2)) := by
  simp [Piece.marked, List.take_append, take_mark, dataOf_append, length_withEnd]

/-- The body without its first piece. -/
def Body.behind (b : Body) (pieces : List Piece) : Body := { b with pieces }

theorem Body.marked_cons {pieces : List Piece} (h : b.pieces = p :: pieces) :
    b.marked = p.marked ++ (b.behind pieces).marked := by
  rw [Body.marked, h, List.flatMap_cons, List.append_assoc]
  rfl

theorem Body.wire_of_nil (h : b.pieces = []) :
    b.wire = withEnd b.last ++ trailerOf b.trailer := by
  rw [Body.wire, Body.marked, h, List.flatMap_nil, List.nil_append, map_fst_mark]

theorem Body.wire_cons {pieces : List Piece} (h : b.pieces = p :: pieces) :
    b.wire = withEnd p.line ++ withEnd p.data ++ (b.behind pieces).wire := by
  rw [Body.wire, Body.marked_cons h, List.map_append, p.map_fst_marked]
  rfl

theorem Body.data_of_nil (h : b.pieces = []) : b.data = [] := by
  rw [Body.data, Body.marked, h, List.flatMap_nil, List.nil_append, dataOf_mark_false]

theorem Body.data_cons {pieces : List Piece} (h : b.pieces = p :: pieces) :
    b.data = p.data ++ (b.behind pieces).data := by
  rw [Body.data, Body.marked_cons h, dataOf_append, p.dataOf_marked]
  rfl

theorem Body.dataWithin_of_nil (h : b.pieces = []) (k : Nat) : b.dataWithin k = [] := by
  rw [Body.dataWithin, Body.marked, h, List.flatMap_nil, List.nil_append, take_mark,
    dataOf_mark_false]

theorem Body.dataWithin_cons {pieces : List Piece} (h : b.pieces = p :: pieces) (k : Nat) :
    b.dataWithin k = p.data.take (k - (p.line.length + 2)) ++
      (b.behind pieces).dataWithin (k - p.marked.length) := by
  rw [Body.dataWithin, Body.marked_cons h, List.take_append, dataOf_append, p.dataOf_take]
  rfl

/-- **The bodies are those of the format.** -/
theorem encodes_iff {wire data : Bytes} :
    Encodes wire data ↔ ∃ b : Body, b.wire = wire ∧ b.data = data := by
  constructor
  · intro h
    induction h with
    | @last line trailer hl hsize ht =>
      obtain ⟨lines, hlines, rfl⟩ := trailer_iff.mp ht
      refine ⟨⟨[], line, lines, isSizeLine_iff.mpr ⟨hl, hsize⟩, hlines⟩, ?_, ?_⟩
      · exact Body.wire_of_nil rfl
      · exact Body.data_of_nil rfl
    | @piece line data wire rest hl hsize hne _ ih =>
      obtain ⟨b, rfl, rfl⟩ := ih
      let p : Piece := ⟨line, data, isSizeLine_iff.mpr ⟨hl, hsize⟩, hne⟩
      have hp : (b.behind (p :: b.pieces)).pieces = p :: b.pieces := rfl
      exact ⟨b.behind (p :: b.pieces), Body.wire_cons hp, Body.data_cons hp⟩
  · rintro ⟨b, rfl, rfl⟩
    induction hp : b.pieces generalizing b with
    | nil =>
      rw [Body.wire_of_nil hp, Body.data_of_nil hp]
      obtain ⟨hl, hsize⟩ := isSizeLine_iff.mp b.isSizeLine
      exact .last hl hsize (trailer_iff.mpr ⟨_, b.isTrailer, rfl⟩)
    | cons p pieces ih =>
      rw [Body.wire_cons hp, Body.data_cons hp]
      obtain ⟨hl, hsize⟩ := isSizeLine_iff.mp p.isSizeLine
      exact .piece hl hsize p.data_ne_nil (ih (b.behind pieces) rfl)

/-! ### Bodies that are cut short -/

/-- **A piece reaches beyond** all positions of 64 bits, and `k` bytes show its size line. -/
def Piece.Overreaches (p : Piece) (position k : Nat) : Prop :=
  p.line.length + 2 ≤ k ∧ Numeral.wordLimit ≤ position + p.line.length + 2 + p.data.length

/-- A piece of a body reaches beyond all positions, and `k` bytes show its size line. -/
def Body.Overreaches (b : Body) (position k : Nat) : Prop :=
  ∃ before p after, b.pieces = before ++ p :: after ∧
    (before.flatMap Piece.marked).length ≤ k ∧
    p.Overreaches (position + (before.flatMap Piece.marked).length)
      (k - (before.flatMap Piece.marked).length)

theorem Body.not_overreaches_of_nil (h : b.pieces = []) : ¬ b.Overreaches position k := by
  rintro ⟨before, p, after, hp, -⟩
  rw [h] at hp
  cases before <;> cases hp

theorem Body.not_overreaches_zero : ¬ b.Overreaches position 0 := by
  rintro ⟨before, p, after, -, -, hk, -⟩
  omega

theorem Body.dataWithin_zero (b : Body) : b.dataWithin 0 = [] := rfl

theorem Body.overreaches_cons {pieces : List Piece} (h : b.pieces = p :: pieces) :
    b.Overreaches position k ↔ p.Overreaches position k ∨
      (b.behind pieces).Overreaches (position + p.marked.length) (k - p.marked.length) := by
  constructor
  · rintro ⟨_ | ⟨q, before⟩, p', after, hp, hle, hk, hw⟩
    · rw [h] at hp
      cases hp
      exact Or.inl ⟨by simpa using hk, by simpa using hw⟩
    · rw [h] at hp
      cases hp
      rw [List.flatMap_cons, List.length_append] at hle hk hw
      exact Or.inr ⟨before, p', after, rfl, by omega, by omega, by omega⟩
  · rintro (⟨hk, hw⟩ | ⟨before, p', after, hp, hle, hk, hw⟩)
    · exact ⟨[], p, pieces, h, Nat.zero_le k, by simpa using hk, by simpa using hw⟩
    · have hlen : ((p :: before).flatMap Piece.marked).length =
          p.marked.length + (before.flatMap Piece.marked).length := by
        rw [List.flatMap_cons, List.length_append]
      refine ⟨p :: before, p', after, ?_, ?_, ?_, ?_⟩
      · rw [h, List.cons_append]
        exact congrArg (p :: ·) hp
      · omega
      · omega
      · omega

/-- In a body of at most `2 ^ 64` bytes no piece reaches beyond. -/
theorem Body.not_overreaches (h : b.wire.length ≤ Numeral.wordLimit) : ¬ b.Overreaches 0 k := by
  rintro ⟨before, p, after, hp, -, -, hw⟩
  have hlen : b.wire.length = b.marked.length := List.length_map _
  rw [hlen, Body.marked, hp, List.flatMap_append, List.flatMap_cons] at h
  simp only [List.length_append, p.length_marked] at h
  omega

/-- Where fewer bytes are there than a piece has, its data is shown. -/
theorem decodeFrom_of_short {size : Nat} {bytes line rest : Bytes}
    (h : Bytes.splitCrlf? bytes = some (line, rest)) (hs : size? line = some size) (hz : size ≠ 0)
    (hw : position + line.length + 2 + size < Numeral.wordLimit) (hlt : rest.length < size + 2) :
    decodeFrom position bytes = .partly (rest.take size) := by
  rw [decodeFrom_of_piece h hs hz, if_neg (Nat.not_le.mpr hw)]
  have hlen := List.length_drop (l := rest) (i := size)
  rcases hdrop : rest.drop size with _ | ⟨first, _ | ⟨second, after⟩⟩
  · rfl
  · rfl
  · rw [hdrop] at hlen
    simp only [List.length_cons] at hlen
    omega

namespace Piece

variable (p : Piece) (wire : Bytes)

/-- The size line is there, and its size reaches beyond all positions. -/
theorem decodeFrom_of_overreaches (h : p.Overreaches position k) :
    decodeFrom position ((withEnd p.line ++ withEnd p.data ++ wire).take k) = .invalid := by
  obtain ⟨hl, hsize⟩ := isSizeLine_iff.mp p.isSizeLine
  rw [List.append_assoc]
  exact decodeFrom_of_beyond (splitCrlf?_take_of_le hl h.1) hsize
    (List.length_eq_zero_iff.not.mpr p.data_ne_nil) h.2

/-- The cut falls into the piece. -/
theorem decodeFrom_take_of_lt (hk : k < p.marked.length) (h : ¬ p.Overreaches position k) :
    decodeFrom position ((withEnd p.line ++ withEnd p.data ++ wire).take k) =
      .partly (p.data.take (k - (p.line.length + 2))) := by
  obtain ⟨hl, hsize⟩ := isSizeLine_iff.mp p.isSizeLine
  rw [p.length_marked] at hk
  rw [List.append_assoc]
  rcases Nat.lt_or_ge k (p.line.length + 2) with hlt | hge
  · rw [decodeFrom_of_none (splitCrlf?_take_of_lt hl hlt), Nat.sub_eq_zero_of_le hlt.le,
      List.take_zero]
  · have hw := Nat.lt_of_not_le fun hw => h ⟨hge, hw⟩
    rw [decodeFrom_of_short (splitCrlf?_take_of_le hl hge) hsize
      (List.length_eq_zero_iff.not.mpr p.data_ne_nil) hw (by rw [List.length_take]; omega),
      take_withEnd]

/-- The cut falls behind the piece. -/
theorem decodeFrom_take_of_le (hk : p.marked.length ≤ k) (h : ¬ p.Overreaches position k) :
    decodeFrom position ((withEnd p.line ++ withEnd p.data ++ wire).take k) =
      (decodeFrom (position + p.marked.length) (wire.take (k - p.marked.length))).after p.data := by
  obtain ⟨hl, hsize⟩ := isSizeLine_iff.mp p.isSizeLine
  have hlen : (withEnd p.line ++ withEnd p.data).length = p.marked.length := by
    rw [← p.map_fst_marked, List.length_map]
  have hmarked := p.length_marked
  have hw := Nat.lt_of_not_le fun hw => h ⟨by omega, hw⟩
  rw [List.take_append, List.take_of_length_le (hlen ▸ hk), hlen,
    decodeFrom_piece hl hsize p.data_ne_nil _ hw]
  refine congrArg (fun q => (decodeFrom q _).after p.data) ?_
  omega

end Piece

/-- **A body that is cut short**: the data that is there is shown, unless a piece reaches beyond all
positions. The induction is on the pieces; a cut falls into the first one or behind it. -/
theorem decodeFrom_take (b : Body) (position : Nat) {k : Nat} (hk : k < b.wire.length) :
    (b.Overreaches position k → decodeFrom position (b.wire.take k) = .invalid) ∧
      (¬ b.Overreaches position k →
        decodeFrom position (b.wire.take k) = .partly (b.dataWithin k)) := by
  induction hp : b.pieces generalizing b position k with
  | nil =>
    refine ⟨fun h => absurd h (Body.not_overreaches_of_nil hp), fun _ => ?_⟩
    obtain ⟨hl, hsize⟩ := isSizeLine_iff.mp b.isSizeLine
    rw [Body.wire_of_nil hp, List.length_append, length_withEnd] at hk
    rw [Body.wire_of_nil hp, Body.dataWithin_of_nil hp]
    rcases Nat.lt_or_ge k (b.last.length + 2) with hlt | hge
    · exact decodeFrom_of_none (splitCrlf?_take_of_lt hl hlt)
    · rw [decodeFrom_of_last (splitCrlf?_take_of_le hl hge) hsize,
        trailer?_take (trailer_iff.mpr ⟨_, b.isTrailer, rfl⟩) (by omega)]
  | cons p pieces ih =>
    rw [Body.overreaches_cons hp, Body.dataWithin_cons hp, Body.wire_cons hp]
    by_cases hfirst : p.Overreaches position k
    · refine ⟨fun _ => p.decodeFrom_of_overreaches _ hfirst, fun h => ?_⟩
      exact absurd (Or.inl hfirst) h
    rw [or_iff_right hfirst]
    rcases Nat.lt_or_ge k p.marked.length with hlt | hle
    · -- Of the pieces behind the first one nothing is there.
      rw [p.decodeFrom_take_of_lt _ hlt hfirst, Nat.sub_eq_zero_of_le hlt.le, Body.dataWithin_zero,
        List.append_nil]
      exact ⟨fun h => absurd h Body.not_overreaches_zero, fun _ => rfl⟩
    · rw [p.decodeFrom_take_of_le _ hle hfirst]
      have hrest : k - p.marked.length < (b.behind pieces).wire.length := by
        rw [Body.wire_cons hp, ← p.map_fst_marked, List.length_append, List.length_map] at hk
        omega
      obtain ⟨hbeyond, hpartly⟩ := ih (b.behind pieces) (position + p.marked.length) hrest rfl
      refine ⟨fun h => ?_, fun h => ?_⟩
      · rw [hbeyond h, Outcome.after]
      · have hmarked := p.length_marked
        rw [hpartly h, Outcome.after, List.take_of_length_le (by omega)]

end Bodies

/-! ### The decoder and the format -/

/-- **The decoder follows the format.** A body at the front of some bytes is decoded to its data,
what is decoded is a body with that data, and of a body that is cut short the data that is there is
shown. The one exception to the last is a size that reaches beyond all positions of 64 bits: it is
refused as soon as its line is there, and a body has such a size only if it takes more than `2 ^ 64`
bytes. -/
theorem decode_format :
    (∀ (b : Body) (rest : Bytes), b.wire.length ≤ Numeral.wordLimit →
      decode (b.wire ++ rest) = .complete b.wire.length b.data) ∧
    (∀ (bytes decoded : Bytes) (consumed : Nat), decode bytes = .complete consumed decoded →
      ∃ b : Body, b.wire = bytes.take consumed ∧ b.data = decoded) ∧
    (∀ (b : Body) (k : Nat), k < b.wire.length →
      (b.Overreaches 0 k → decode (b.wire.take k) = .invalid) ∧
      (¬ b.Overreaches 0 k → decode (b.wire.take k) = .partly (b.dataWithin k))) ∧
    ∀ (b : Body) (k : Nat), b.wire.length ≤ Numeral.wordLimit → ¬ b.Overreaches 0 k := by
  refine ⟨fun b rest h => ?_, fun bytes decoded consumed h => ?_, fun b k hk => ?_,
    fun b k h => Body.not_overreaches h⟩
  · have hlen : 0 + b.wire.length ≤ Numeral.wordLimit := by rwa [Nat.zero_add]
    rw [decode, decodeFrom_of_encodes (encodes_iff.mpr ⟨b, rfl, rfl⟩) rest hlen, Nat.zero_add]
  · exact encodes_iff.mp (encodes_of_decodeFrom h)
  · exact decodeFrom_take b 0 hk

/-- A piece of `2 ^ 64 - 1` bytes, the first of which are `abc`. -/
def longestPiece : Piece where
  line := Bytes.ascii "ffffffffffffffff"
  data := Bytes.ascii "abc" ++ List.replicate (Numeral.wordLimit - 4) 0
  isSizeLine := by
    rw [List.length_append, List.length_replicate]
    refine isSizeLine_iff.mpr ⟨isLine_of_cr_notMem ?_, ?_⟩ <;> decide +kernel
  data_ne_nil := List.append_ne_nil_of_left_ne_nil (by decide +kernel) _

/-- A body of that piece alone. -/
def overlong : Body where
  pieces := [longestPiece]
  last := Bytes.ascii "0"
  trailer := []
  isSizeLine := by
    refine isSizeLine_iff.mpr ⟨isLine_of_cr_notMem ?_, ?_⟩ <;> decide +kernel
  isTrailer := List.forall_mem_nil _

/-- **A body that is cut short may be refused**: the size line of this one is there and three bytes
of its data, but the data would end at no position of 64 bits. -/
theorem decode_overlong :
    21 < overlong.wire.length ∧
      overlong.wire.take 21 = Bytes.ascii "ffffffffffffffff\r\nabc" ∧
      overlong.dataWithin 21 = Bytes.ascii "abc" ∧
      decode (overlong.wire.take 21) = .invalid := by
  have hp : overlong.pieces = [longestPiece] := rfl
  obtain ⟨zeros, hdata⟩ : ∃ zeros, longestPiece.data = Bytes.ascii "abc" ++ zeros := ⟨_, rfl⟩
  have hline : longestPiece.line.length = 16 := by decide +kernel
  have habc : (Bytes.ascii "abc").length = 3 := by decide +kernel
  have hfront : withEnd longestPiece.line ++ Bytes.ascii "abc" =
      Bytes.ascii "ffffffffffffffff\r\nabc" := by decide +kernel
  have hlen : (Bytes.ascii "ffffffffffffffff\r\nabc").length = 21 := by decide +kernel
  have hwire : overlong.wire = Bytes.ascii "ffffffffffffffff\r\nabc" ++
      (withEnd zeros ++ (overlong.behind []).wire) := by
    rw [Body.wire_cons hp, hdata, ← hfront, withEnd, withEnd, withEnd]
    simp only [List.append_assoc]
  have htake : overlong.wire.take 21 = Bytes.ascii "ffffffffffffffff\r\nabc" := by
    rw [hwire, List.take_left' hlen]
  refine ⟨?_, htake, ?_, ?_⟩
  · rw [hwire, List.length_append, List.length_append, length_withEnd, hlen]
    omega
  · have hmarked : 21 ≤ longestPiece.marked.length := by
      rw [longestPiece.length_marked, hline, hdata, List.length_append, habc]
      omega
    rw [Body.dataWithin_cons hp, Nat.sub_eq_zero_of_le hmarked, Body.dataWithin_zero,
      List.append_nil, hline, hdata]
    exact List.take_left' habc
  · rw [htake]
    decide +kernel

end HttpReplay.Http.Chunked
