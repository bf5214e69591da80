import HttpReplay.Capture.Stream
import HttpReplay.Http.Pending
import Mathlib.Data.List.Basic

/-!
# Where the bytes come from

Every byte of a stream belongs to a chunk. The spans beside a buffer say so in short; written out,
they are a list with the number of a chunk for each pending byte,
`HttpReplay.Http.Span.origins`. On that list the operations on pending bytes are plain: a new
chunk appends its number as often as it has bytes, and taking bytes off the front drops as many
numbers. So the origins of what is pending are a final part of the origins of all the bytes of the
direction, `HttpReplay.Stream.originsBefore`, and `HttpReplay.Stream.getElem?_originsBefore` reads
those off the stream.
-/

namespace HttpReplay

/-! ### The bytes of a direction -/

namespace Chunk

/-- What a chunk adds to the bytes of a direction. -/
def part (d : Direction) (chunk : Chunk) : Bytes :=
  if chunk.direction = d then chunk.content else []

/-- What the chunks of a direction hold. -/
def bytesOf (d : Direction) (chunks : List Chunk) : Bytes :=
  ((chunks.filter (·.direction = d)).map (·.content)).flatten

/-- The number of its chunk for each byte of a direction; the first chunk has the given number. -/
def originsFrom (d : Direction) (index : Nat) : List Chunk → List Nat
  | [] => []
  | chunk :: rest =>
    List.replicate (chunk.part d).length index ++ originsFrom d (index + 1) rest

variable {d : Direction} {chunk : Chunk} {chunks : List Chunk}

theorem part_of_eq (h : chunk.direction = d) : chunk.part d = chunk.content := if_pos h

theorem part_of_ne (h : chunk.direction ≠ d) : chunk.part d = [] := if_neg h

@[simp] theorem bytesOf_nil : bytesOf d [] = [] := rfl

theorem bytesOf_cons (d : Direction) (chunk : Chunk) (chunks : List Chunk) :
    bytesOf d (chunk :: chunks) = chunk.part d ++ bytesOf d chunks := by
  by_cases h : chunk.direction = d <;> simp [bytesOf, part, h]

theorem bytesOf_append (d : Direction) (before after : List Chunk) :
    bytesOf d (before ++ after) = bytesOf d before ++ bytesOf d after := by
  simp [bytesOf]

theorem originsFrom_append (d : Direction) (index : Nat) (before after : List Chunk) :
    originsFrom d index (before ++ after) =
      originsFrom d index before ++ originsFrom d (index + before.length) after := by
  induction before generalizing index with
  | nil => rfl
  | cons chunk before ih =>
    simp only [List.cons_append, originsFrom, ih, List.append_assoc, List.length_cons]
    rw [Nat.add_assoc, Nat.add_comm 1]

theorem length_originsFrom (d : Direction) (index : Nat) (chunks : List Chunk) :
    (originsFrom d index chunks).length = (bytesOf d chunks).length := by
  induction chunks generalizing index with
  | nil => rfl
  | cons chunk chunks ih =>
    rw [originsFrom, bytesOf_cons, List.length_append, List.length_append, ih,
      List.length_replicate]

/-- **The chunk of a byte** is the one within whose bounds the byte stands. -/
theorem getElem?_originsFrom {index place number : Nat} :
    (originsFrom d index chunks)[place]? = some number ↔
      ∃ i chunk, chunks[i]? = some chunk ∧ number = index + i ∧
        (bytesOf d (chunks.take i)).length ≤ place ∧
        place < (bytesOf d (chunks.take i)).length + (chunk.part d).length := by
  induction chunks generalizing index place with
  | nil => simp [originsFrom]
  | cons chunk chunks ih =>
    rw [originsFrom, List.getElem?_append, List.length_replicate]
    by_cases hlt : place < (chunk.part d).length
    · -- The byte stands in the first chunk.
      rw [if_pos hlt, List.getElem?_replicate, if_pos hlt, Option.some.injEq]
      constructor
      · rintro rfl
        exact ⟨0, chunk, rfl, rfl, Nat.zero_le _, by simpa using hlt⟩
      · rintro ⟨_ | i, c, hc, rfl, hle, -⟩
        · rfl
        · rw [List.take_succ_cons, bytesOf_cons, List.length_append] at hle
          omega
    · rw [if_neg hlt, ih]
      constructor
      · rintro ⟨i, c, hc, rfl, hle, hlt'⟩
        refine ⟨i + 1, c, hc, by omega, ?_, ?_⟩ <;>
          rw [List.take_succ_cons, bytesOf_cons, List.length_append] <;> omega
      · rintro ⟨_ | i, c, hc, rfl, hle, hlt'⟩
        · obtain rfl := Option.some.inj hc
          simp only [List.take_zero, bytesOf_nil, List.length_nil, Nat.zero_add] at hlt'
          exact absurd hlt' hlt
        · rw [List.take_succ_cons, bytesOf_cons, List.length_append] at hle hlt'
          exact ⟨i, c, hc, by omega, by omega, by omega⟩

end Chunk

namespace Stream

/-- What went one way in the chunks before a position of the stream. -/
def bytesBefore (s : Stream) (d : Direction) (position : Nat) : Bytes :=
  Chunk.bytesOf d (s.chunks.take position)

/-- What went one way from a position of the stream on. -/
def bytesFrom (s : Stream) (d : Direction) (position : Nat) : Bytes :=
  Chunk.bytesOf d (s.chunks.drop position)

/-- The chunk of each byte that went one way before a position of the stream. -/
def originsBefore (s : Stream) (d : Direction) (position : Nat) : List Nat :=
  Chunk.originsFrom d 0 (s.chunks.take position)

variable {s : Stream} {d : Direction} {n i j place : Nat} {chunk : Chunk}

@[simp] theorem bytesBefore_zero : s.bytesBefore d 0 = [] := by
  simp [bytesBefore]

theorem bytesBefore_of_length_le (h : s.chunks.length ≤ n) :
    s.bytesBefore d n = s.bytes d := by
  rw [bytesBefore, List.take_of_length_le h]
  rfl

theorem bytesBefore_append_bytesFrom (n : Nat) :
    s.bytesBefore d n ++ s.bytesFrom d n = s.bytes d := by
  rw [bytesBefore, bytesFrom, ← Chunk.bytesOf_append, List.take_append_drop]
  rfl

@[simp] theorem bytesFrom_length : s.bytesFrom d s.chunks.length = [] := by
  rw [bytesFrom, List.drop_length]
  rfl

theorem bytesFrom_of_getElem? (h : s.chunks[n]? = some chunk) (d : Direction) :
    s.bytesFrom d n = chunk.part d ++ s.bytesFrom d (n + 1) := by
  obtain ⟨hlt, rfl⟩ := List.getElem?_eq_some_iff.mp h
  rw [bytesFrom, List.drop_eq_getElem_cons hlt, Chunk.bytesOf_cons]
  rfl

theorem bytesBefore_succ (h : s.chunks[n]? = some chunk) (d : Direction) :
    s.bytesBefore d (n + 1) = s.bytesBefore d n ++ chunk.part d := by
  rw [bytesBefore, List.take_add_one, h, Chunk.bytesOf_append, bytesBefore, Option.toList_some,
    Chunk.bytesOf_cons, Chunk.bytesOf_nil, List.append_nil]

theorem bytesBefore_mono (h : i ≤ j) : s.bytesBefore d i <+: s.bytesBefore d j := by
  refine ⟨Chunk.bytesOf d ((s.chunks.take j).drop i), ?_⟩
  have hp : s.chunks.take i = (s.chunks.take j).take i := by
    rw [List.take_take, Nat.min_eq_left h]
  rw [bytesBefore, bytesBefore, hp, ← Chunk.bytesOf_append, List.take_append_drop]

@[simp] theorem originsBefore_zero : s.originsBefore d 0 = [] := by
  simp [originsBefore, Chunk.originsFrom]

theorem length_originsBefore : (s.originsBefore d n).length = (s.bytesBefore d n).length :=
  Chunk.length_originsFrom d 0 _

theorem originsBefore_succ (h : s.chunks[n]? = some chunk) (d : Direction) :
    s.originsBefore d (n + 1) =
      s.originsBefore d n ++ List.replicate (chunk.part d).length n := by
  have hlt : n < s.chunks.length := (List.getElem?_eq_some_iff.mp h).1
  rw [originsBefore, List.take_add_one, h, Chunk.originsFrom_append, originsBefore,
    Option.toList_some, List.length_take, Nat.min_eq_left (Nat.le_of_lt hlt), Nat.zero_add]
  simp [Chunk.originsFrom]

/-- **The chunk of a byte of the stream.** -/
theorem getElem?_originsBefore :
    (s.originsBefore d n)[place]? = some i ↔
      i < n ∧ ∃ chunk, s.chunks[i]? = some chunk ∧ chunk.direction = d ∧
        (s.bytesBefore d i).length ≤ place ∧ place < (s.bytesBefore d (i + 1)).length := by
  rw [originsBefore, Chunk.getElem?_originsFrom]
  constructor
  · rintro ⟨i, chunk, hc, rfl, hle, hlt⟩
    rw [List.getElem?_take] at hc
    split at hc
    · rename_i hin
      rw [List.take_take, Nat.min_eq_left (Nat.le_of_lt hin)] at hle hlt
      rw [Nat.zero_add]
      -- A chunk of the other direction has no byte of this one.
      have hd : chunk.direction = d := by
        by_contra hd
        rw [Chunk.part_of_ne hd, List.length_nil] at hlt
        omega
      refine ⟨hin, chunk, hc, hd, hle, ?_⟩
      rw [bytesBefore_succ hc, List.length_append]
      exact hlt
    · cases hc
  · rintro ⟨hin, chunk, hc, hd, hle, hlt⟩
    rw [bytesBefore_succ hc, List.length_append] at hlt
    refine ⟨i, chunk, ?_, (Nat.zero_add i).symm, ?_⟩
    · rw [List.getElem?_take, if_pos hin, hc]
    · rw [List.take_take, Nat.min_eq_left (Nat.le_of_lt hin)]
      exact ⟨hle, hlt⟩

/-- A chunk has a byte behind a place just where it has bytes at all and does not end there. -/
theorem mem_drop_originsBefore :
    i ∈ (s.originsBefore d n).drop place ↔
      i < n ∧ ∃ chunk, s.chunks[i]? = some chunk ∧ chunk.direction = d ∧ chunk.content ≠ [] ∧
        place < (s.bytesBefore d (i + 1)).length := by
  rw [List.mem_iff_getElem?]
  simp only [List.getElem?_drop, getElem?_originsBefore]
  constructor
  · rintro ⟨k, hin, chunk, hc, hd, hle, hlt⟩
    refine ⟨hin, chunk, hc, hd, ?_, by omega⟩
    intro he
    rw [bytesBefore_succ hc, Chunk.part_of_eq hd, he, List.append_nil] at hlt
    omega
  · rintro ⟨hin, chunk, hc, hd, hne, hlt⟩
    have hpos := List.length_pos_iff.mpr hne
    have hlen : (s.bytesBefore d (i + 1)).length =
        (s.bytesBefore d i).length + chunk.content.length := by
      rw [bytesBefore_succ hc, Chunk.part_of_eq hd, List.length_append]
    exact ⟨(s.bytesBefore d i).length - place, hin, chunk, hc, hd, by omega, by omega⟩

end Stream

/-! ### Pending bytes -/

namespace Http

/-- The chunk of each pending byte. -/
def Span.origins (spans : List Span) : List Nat :=
  spans.flatMap fun s => List.replicate s.remaining s.chunk

namespace Span

@[simp] theorem origins_nil : origins [] = [] := rfl

theorem origins_cons (s : Span) (spans : List Span) :
    origins (s :: spans) = List.replicate s.remaining s.chunk ++ origins spans := rfl

theorem origins_append (before after : List Span) :
    origins (before ++ after) = origins before ++ origins after :=
  List.flatMap_append

end Span

namespace Pending

open HttpReplay.Http.Span

/-- The spans account for every byte of the buffer. -/
def IsCovered (p : Pending) : Prop := (origins p.spans).length = p.buffer.length

/-- **Taking bytes off the front** drops their origins. -/
theorem origins_consumeSpans (n : Nat) (spans : List Span) :
    origins (consumeSpans n spans) = (origins spans).drop n := by
  induction spans generalizing n with
  | nil => simp [consumeSpans]
  | cons s spans ih =>
    rw [consumeSpans]
    split
    · rename_i hlt
      rw [origins_cons, origins_cons,
        List.drop_append_of_le_length (by simpa using Nat.le_of_lt hlt), List.drop_replicate]
    · rename_i hge
      have hle : (List.replicate s.remaining s.chunk).length ≤ n := by simpa using hge
      rw [ih, origins_cons, List.drop_append, List.drop_of_length_le hle, List.nil_append,
        List.length_replicate]

theorem origins_push (p : Pending) (chunk : Nat) (content : Bytes) :
    origins (p.push chunk content).spans =
      origins p.spans ++ List.replicate content.length chunk := by
  simp [push, origins_append, origins_cons]

/-- The first pending byte stands in the chunk that a message starts in. -/
theorem startChunk?_eq_head? {p : Pending} (h : origins p.spans ≠ []) :
    p.startChunk? = (origins p.spans).head? := by
  obtain ⟨buffer, spans, gaveUp⟩ := p
  simp only [startChunk?] at h ⊢
  have hfind : (spans.find? fun s => 0 < s.remaining).map (·.chunk) = (origins spans).head? := by
    clear h
    induction spans with
    | nil => rfl
    | cons s spans ih =>
      rw [origins_cons]
      rcases hr : s.remaining with _ | n
      · simpa [hr] using ih
      · simp [hr, List.replicate_succ]
  rw [← hfind]
  cases hs : spans.find? fun s => 0 < s.remaining with
  | some s => rfl
  | none =>
    rw [hs, Option.map_none] at hfind
    exact absurd (List.head?_eq_none_iff.mp hfind.symm) h

/-- The chunks left over are those that pending bytes stand in. -/
theorem mem_chunksLeft {p : Pending} {i : Nat} : i ∈ p.chunksLeft ↔ i ∈ origins p.spans := by
  simp only [chunksLeft, origins, List.mem_map, List.mem_filter, List.mem_flatMap,
    List.mem_replicate, decide_eq_true_eq]
  constructor
  · rintro ⟨s, ⟨hs, hpos⟩, rfl⟩
    exact ⟨s, hs, Nat.ne_of_gt hpos, rfl⟩
  · rintro ⟨s, hs, hne, rfl⟩
    exact ⟨s, ⟨hs, Nat.pos_of_ne_zero hne⟩, rfl⟩

theorem isCovered_consume {p : Pending} (h : p.IsCovered) (n : Nat) : (p.consume n).IsCovered := by
  simp only [IsCovered, consume, origins_consumeSpans, List.length_drop] at h ⊢
  rw [h]

theorem isCovered_push {p : Pending} (h : p.IsCovered) (chunk : Nat) (content : Bytes) :
    (p.push chunk content).IsCovered := by
  rw [IsCovered, origins_push, List.length_append, List.length_replicate, h, push,
    List.length_append]

theorem isCovered_giveUp (p : Pending) : p.giveUp.IsCovered := rfl

/-- Where a byte is pending there is a chunk to start in. -/
theorem IsCovered.startChunk?_ne_none {p : Pending} (h : p.IsCovered) (hb : p.buffer ≠ []) :
    p.startChunk? ≠ none := by
  have hne : origins p.spans ≠ [] := by
    rw [← List.length_pos_iff] at hb ⊢
    rw [h]
    exact hb
  rw [startChunk?_eq_head? hne]
  exact fun hn => hne (List.head?_eq_none_iff.mp hn)

end Pending

end Http

end HttpReplay
