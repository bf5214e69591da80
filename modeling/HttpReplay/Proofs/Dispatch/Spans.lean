import HttpReplay.Proofs.Dispatch.Ledger
import Mathlib.Algebra.Ring.Nat
import Mathlib.Data.List.DropRight

/-!
# Spans beside a buffer

The bytes of a direction and the spans that tell where they come from are kept apart, and each
operation changes both. Here it is shown that they never drift apart, whatever is done to them:
chunks are appended, bytes are taken off the front, and the direction is given up, in any order.

* `HttpReplay.Http.Pending.Runs` are the pending bytes that can come about, with the chunks that
  were appended and the number of bytes that are gone;
* `HttpReplay.Http.Pending.Tiles` says that spans tile a buffer, and
  `HttpReplay.Http.Pending.Tiles.consume` that they still do when bytes are taken;
* `HttpReplay.Http.Pending.Accounts` is **what the spans tell**, and
  `HttpReplay.Http.Pending.accounts_of_runs` says that they always do;
* `HttpReplay.Http.Reached.runs` – in a run nothing else is done to pending bytes.
-/

namespace HttpReplay.Http

namespace Pending

open HttpReplay.Http.Span

/-! ### Chunks that were appended -/

/-- What some chunks hold, one after the other. -/
def bytesIn (arrived : List (Nat × Bytes)) : Bytes := arrived.flatMap (·.2)

/-- The number of its chunk for each of these bytes. -/
def originsIn (arrived : List (Nat × Bytes)) : List Nat :=
  arrived.flatMap fun c => List.replicate c.2.length c.1

/-- What the chunk with a number holds. -/
def contentIn (arrived : List (Nat × Bytes)) (chunk : Nat) : Bytes :=
  (arrived.lookup chunk).getD []

/-- **A chunk holds the byte at a place**, counted over all that the chunks hold. -/
def Holds (arrived : List (Nat × Bytes)) (place chunk : Nat) : Prop :=
  ∃ before content after, arrived = before ++ (chunk, content) :: after ∧
    (bytesIn before).length ≤ place ∧ place < (bytesIn before).length + content.length

variable {arrived : List (Nat × Bytes)} {gone n place chunk : Nat} {p : Pending}

theorem bytesIn_append (before after : List (Nat × Bytes)) :
    bytesIn (before ++ after) = bytesIn before ++ bytesIn after :=
  List.flatMap_append

theorem originsIn_append (before after : List (Nat × Bytes)) :
    originsIn (before ++ after) = originsIn before ++ originsIn after :=
  List.flatMap_append

theorem originsIn_singleton (c : Nat × Bytes) : originsIn [c] = List.replicate c.2.length c.1 :=
  List.flatMap_singleton _ _

theorem length_originsIn (arrived : List (Nat × Bytes)) :
    (originsIn arrived).length = (bytesIn arrived).length := by
  simp [originsIn, bytesIn, List.length_flatMap]

/-- Written out, the numbers tell which chunk holds a byte. -/
theorem getElem?_originsIn :
    (originsIn arrived)[place]? = some chunk ↔ Holds arrived place chunk := by
  constructor
  · intro h
    induction arrived generalizing place with
    | nil => simp [originsIn] at h
    | cons c arrived ih =>
      have hfirst : (bytesIn [c]).length = c.2.length := by simp [bytesIn]
      rw [← List.singleton_append, originsIn_append, List.getElem?_append, originsIn_singleton,
        List.length_replicate] at h
      split at h
      · rename_i hlt
        obtain ⟨-, rfl⟩ := List.mem_replicate.mp (List.mem_of_getElem? h)
        exact ⟨[], c.2, arrived, rfl, Nat.zero_le _, by simpa [bytesIn] using hlt⟩
      · -- The byte is one of those behind the first chunk.
        rename_i hge
        obtain ⟨before, content, after, rfl, hle, hlt⟩ := ih h
        refine ⟨[c] ++ before, content, after, rfl, ?_, ?_⟩ <;>
          rw [bytesIn_append, List.length_append] <;> omega
  · rintro ⟨before, content, after, rfl, hle, hlt⟩
    have hpart : originsIn [(chunk, content)] = List.replicate content.length chunk :=
      originsIn_singleton _
    rw [← length_originsIn] at hle hlt
    have hin : place - (originsIn before).length < content.length := by omega
    rw [← List.singleton_append, originsIn_append, originsIn_append, hpart,
      List.getElem?_append_right hle, List.getElem?_append_left (by rwa [List.length_replicate]),
      List.getElem?_replicate, if_pos hin]

/-- Where no two chunks have the same number, each is found by its number. -/
theorem contentIn_of_mem (hn : (arrived.map (·.1)).Nodup) {c : Nat × Bytes} (hc : c ∈ arrived) :
    contentIn arrived c.1 = c.2 := by
  obtain ⟨before, after, rfl⟩ := List.append_of_mem hc
  rw [contentIn, List.lookup_eq_some_iff.mpr ⟨before, after, rfl, fun e he => ?_⟩]
  · rfl
  · rw [List.map_append, List.map_cons, List.nodup_append] at hn
    exact bne_iff_ne.mpr (hn.2.2 _ (List.mem_map_of_mem he) _ List.mem_cons_self).symm

/-! ### What is done to pending bytes -/

/-- **Pending bytes that come about** by appending chunks, each with a greater number than those
before, by taking bytes that are there off the front, and by giving up. -/
inductive Runs : List (Nat × Bytes) → Nat → Pending → Prop
  /-- Nothing is pending. -/
  | new : Runs [] 0 {}
  /-- A chunk is appended. -/
  | push {arrived : List (Nat × Bytes)} {gone chunk : Nat} {p : Pending} (content : Bytes) :
      Runs arrived gone p → (∀ c ∈ arrived, c.1 < chunk) →
      Runs (arrived ++ [(chunk, content)]) gone (p.push chunk content)
  /-- Bytes are taken off the front. -/
  | consume {arrived : List (Nat × Bytes)} {gone n : Nat} {p : Pending} :
      Runs arrived gone p → n ≤ p.buffer.length → Runs arrived (gone + n) (p.consume n)
  /-- All that is pending is given up. -/
  | giveUp {arrived : List (Nat × Bytes)} {gone : Nat} {p : Pending} :
      Runs arrived gone p → Runs arrived (bytesIn arrived).length p.giveUp

/-- The numbers of the chunks ascend. -/
theorem Runs.arrived_ascending (h : Runs arrived gone p) :
    (arrived.map (·.1)).Pairwise (· < ·) := by
  induction h with
  | new => exact List.Pairwise.nil
  | push content _ hlater ih =>
    rw [List.map_append, List.pairwise_append]
    refine ⟨ih, List.pairwise_singleton _ _, fun a ha b hb => ?_⟩
    obtain ⟨c, hc, rfl⟩ := List.mem_map.mp ha
    obtain rfl : b = _ := List.mem_singleton.mp hb
    exact hlater c hc
  | consume _ _ ih => exact ih
  | giveUp _ ih => exact ih

/-- What is pending are the bytes that arrived and are not gone. -/
theorem Runs.buffer_eq (h : Runs arrived gone p) :
    gone ≤ (bytesIn arrived).length ∧ p.buffer = (bytesIn arrived).drop gone := by
  induction h with
  | new => exact ⟨Nat.le_refl 0, rfl⟩
  | push content _ _ ih =>
    obtain ⟨hle, hbuffer⟩ := ih
    rw [bytesIn_append, List.length_append, List.drop_append_of_le_length hle, Pending.push,
      hbuffer]
    exact ⟨Nat.le_add_right_of_le hle, by simp [bytesIn]⟩
  | consume _ hn ih =>
    obtain ⟨hle, hbuffer⟩ := ih
    rw [hbuffer, List.length_drop] at hn
    exact ⟨by omega, by rw [Pending.consume, hbuffer, List.drop_drop]⟩
  | giveUp _ ih => exact ⟨Nat.le_refl _, List.drop_length.symm⟩

/-- The spans know the chunk of each of them. -/
theorem Runs.origins_eq (h : Runs arrived gone p) :
    origins p.spans = (originsIn arrived).drop gone := by
  induction h with
  | new => rfl
  | push content h _ ih =>
    have hle := h.buffer_eq.1
    rw [← length_originsIn] at hle
    rw [origins_push, ih, originsIn_append, List.drop_append_of_le_length hle]
    simp [originsIn]
  | consume _ _ ih => rw [Pending.consume, origins_consumeSpans, ih, List.drop_drop]
  | giveUp _ ih => rw [← length_originsIn, List.drop_length, Pending.giveUp, origins_nil]

/-! ### Tilings -/

/-- The spans that are left are the last ones. -/
theorem chunks_consumeSpans_suffix (n : Nat) (spans : List Span) :
    (consumeSpans n spans).map (·.chunk) <:+ spans.map (·.chunk) := by
  induction spans generalizing n with
  | nil => exact List.suffix_rfl
  | cons s spans ih =>
    rw [consumeSpans]
    split
    · exact List.suffix_rfl
    · exact (ih _).trans (List.suffix_cons _ _)

/-- The chunks of the spans are among those that were appended, in the same order. -/
theorem Runs.chunks_sublist (h : Runs arrived gone p) :
    (p.spans.map (·.chunk)).Sublist (arrived.map (·.1)) := by
  induction h with
  | new => exact List.Sublist.slnil
  | push content _ _ ih =>
    rw [Pending.push, List.map_append, List.map_append]
    exact ih.append (List.Sublist.refl _)
  | consume _ _ ih => exact (chunks_consumeSpans_suffix _ _).sublist.trans ih
  | giveUp _ ih => exact List.nil_sublist _

/-- **Spans tile a buffer**: it is made of the last bytes of their chunks, and only of the first
chunk some bytes may be missing. -/
structure Tiles (content : Nat → Bytes) (spans : List Span) (buffer : Bytes) : Prop where
  fits : ∀ s ∈ spans, s.remaining ≤ (content s.chunk).length
  whole : ∀ s ∈ spans.tail, s.remaining = (content s.chunk).length
  buffer : buffer = spans.flatMap fun s => (content s.chunk).rtake s.remaining

section Tiles

variable {content : Nat → Bytes} {spans : List Span} {buffer : Bytes}

/-- **Taking bytes off the front** leaves a tiling: the span in which the cut falls is the first
one, and those behind it are whole. -/
theorem Tiles.consume (h : Tiles content spans buffer) (n : Nat) :
    Tiles content (consumeSpans n spans) (buffer.drop n) := by
  induction spans generalizing n buffer with
  | nil =>
    rw [h.buffer, consumeSpans]
    exact ⟨List.forall_mem_nil _, List.forall_mem_nil _, List.drop_nil⟩
  | cons s spans ih =>
    obtain ⟨hs, hfits⟩ := List.forall_mem_cons.mp h.fits
    have hlen : ((content s.chunk).rtake s.remaining).length = s.remaining := by
      rw [List.rtake, List.length_drop]
      omega
    rw [h.buffer, List.flatMap_cons, consumeSpans]
    split
    · rename_i hlt
      have hcut : (content s.chunk).length - s.remaining + n =
          (content s.chunk).length - (s.remaining - n) := by omega
      refine ⟨List.forall_mem_cons.mpr ⟨Nat.le_trans (Nat.sub_le _ _) hs, hfits⟩, h.whole, ?_⟩
      rw [List.flatMap_cons, List.drop_append_of_le_length (by omega), List.rtake,
        List.rtake, List.drop_drop, hcut]
    · rename_i hge
      rw [List.drop_append, List.drop_of_length_le (by omega), List.nil_append, hlen]
      exact ih ⟨hfits, fun t ht => h.whole t (List.mem_of_mem_tail ht), rfl⟩ _

/-- A chunk behind the others is whole. -/
theorem Tiles.push (h : Tiles content spans buffer) (chunk : Nat) :
    Tiles content (spans ++ [⟨chunk, (content chunk).length⟩]) (buffer ++ content chunk) where
  fits := by
    intro s hs
    rcases List.mem_append.mp hs with hs | hs
    · exact h.fits s hs
    · rw [List.mem_singleton.mp hs]
  whole := by
    intro s hs
    rcases spans with _ | ⟨first, spans⟩
    · cases hs
    · rcases List.mem_append.mp hs with hs | hs
      · exact h.whole s hs
      · rw [List.mem_singleton.mp hs]
  buffer := by
    rw [List.flatMap_append, ← h.buffer, List.flatMap_singleton, List.rtake, Nat.sub_self,
      List.drop_zero]

end Tiles

/-- The spans tile what is pending, where the chunks hold what was appended. -/
theorem Runs.tiles (h : Runs arrived gone p) {content : Nat → Bytes}
    (hc : ∀ c ∈ arrived, content c.1 = c.2) : Tiles content p.spans p.buffer := by
  induction h with
  | new => exact ⟨nofun, nofun, rfl⟩
  | @push arrived gone chunk p bytes _ _ ih =>
    have hchunk : content chunk = bytes := hc (chunk, bytes) (by simp)
    have htiles := (ih fun c hmem => hc c (List.mem_append_left _ hmem)).push chunk
    rwa [hchunk] at htiles
  | consume _ _ ih => exact (ih hc).consume _
  | giveUp _ ih => exact ⟨nofun, nofun, rfl⟩

/-- Every chunk is found by its number, since the numbers ascend. -/
theorem Runs.tiles_contentIn (h : Runs arrived gone p) :
    Tiles (contentIn arrived) p.spans p.buffer :=
  h.tiles fun _ hc => contentIn_of_mem h.arrived_ascending.nodup hc

/-! ### What the spans tell -/

/-- **What the spans tell** of the bytes that are pending, when some chunks were appended and some
of their bytes are gone. -/
structure Accounts (arrived : List (Nat × Bytes)) (gone : Nat) (p : Pending) : Prop where
  /-- Pending are the bytes that arrived and are not gone. -/
  pending : p.buffer = (bytesIn arrived).drop gone
  /-- The spans are together as long as the buffer. -/
  lengths : (p.spans.map (·.remaining)).sum = p.buffer.length
  /-- The numbers of their chunks ascend. -/
  ascending : (p.spans.map (·.chunk)).Pairwise (· < ·)
  /-- A span is a part of a chunk that was appended. -/
  known : ∀ s ∈ p.spans, s.chunk ∈ arrived.map (·.1) ∧
    s.remaining ≤ (contentIn arrived s.chunk).length
  /-- All but the first are whole chunks. -/
  whole : ∀ s ∈ p.spans.tail, s.remaining = (contentIn arrived s.chunk).length
  /-- The buffer is made of the last bytes of these chunks. -/
  buffer : p.buffer = p.spans.flatMap fun s => (contentIn arrived s.chunk).rtake s.remaining
  /-- A message starts in the chunk that holds the first pending byte. -/
  start : p.buffer ≠ [] → ∃ chunk, p.startChunk? = some chunk ∧ Holds arrived gone chunk
  /-- What is left over when the direction is given up is told in order and once. -/
  left_ascending : p.chunksLeft.Pairwise (· < ·)
  /-- It is the chunks that hold a pending byte. -/
  left : ∀ chunk, chunk ∈ p.chunksLeft ↔ ∃ place, gone ≤ place ∧ Holds arrived place chunk

/-- **Buffer and spans never drift apart**, whatever is done to them. -/
theorem accounts_of_runs (h : Runs arrived gone p) : Accounts arrived gone p where
  pending := h.buffer_eq.2
  lengths := by
    have hlen := congrArg List.length h.origins_eq
    rw [List.length_drop, length_originsIn, ← List.length_drop, ← h.buffer_eq.2] at hlen
    rw [← hlen]
    simp [origins, List.length_flatMap]
  ascending := h.arrived_ascending.sublist h.chunks_sublist
  known := fun s hs =>
    ⟨h.chunks_sublist.subset (List.mem_map_of_mem hs), h.tiles_contentIn.fits s hs⟩
  whole := h.tiles_contentIn.whole
  buffer := h.tiles_contentIn.buffer
  start := by
    intro hne
    have horigins : origins p.spans ≠ [] := by
      rw [← List.length_pos_iff] at hne ⊢
      rwa [h.origins_eq, List.length_drop, length_originsIn, ← List.length_drop, ← h.buffer_eq.2]
    obtain ⟨chunk, hchunk⟩ := Option.ne_none_iff_exists'.mp
      (List.head?_eq_none_iff.not.mpr horigins)
    refine ⟨chunk, (startChunk?_eq_head? horigins).trans hchunk, getElem?_originsIn.mp ?_⟩
    rw [← List.head?_drop, ← h.origins_eq, hchunk]
  left_ascending :=
    h.arrived_ascending.sublist ((List.filter_sublist.map _).trans h.chunks_sublist)
  left := by
    intro chunk
    rw [mem_chunksLeft, h.origins_eq, List.mem_iff_getElem?]
    simp only [List.getElem?_drop, getElem?_originsIn]
    constructor
    · rintro ⟨i, hi⟩
      exact ⟨gone + i, Nat.le_add_right _ _, hi⟩
    · rintro ⟨place, hle, hplace⟩
      exact ⟨place - gone, by rwa [Nat.add_sub_cancel' hle]⟩

/-- Chunks that were appended, some of them empty. -/
def fiveChunks : List (Nat × Bytes) :=
  [(0, Bytes.ascii "xy"), (1, []), (3, Bytes.ascii "abc"), (4, []), (6, Bytes.ascii "de")]

/-- The first chunk is given up, the others are appended, and a byte is taken. -/
theorem accounts_of_fiveChunks :
    let p : Pending := ⟨Bytes.ascii "bcde", [⟨3, 2⟩, ⟨4, 0⟩, ⟨6, 2⟩], true⟩
    Runs fiveChunks 3 p ∧ p.startChunk? = some 3 ∧ p.chunksLeft = [3, 6] ∧
      Accounts fiveChunks 3 p := by
  intro p
  have hgiven : Runs [(0, Bytes.ascii "xy")] 2 (({} : Pending).push 0 (Bytes.ascii "xy")).giveUp :=
    (@Runs.push [] 0 0 {} (Bytes.ascii "xy") .new (by decide)).giveUp
  have happended := @Runs.push _ _ 6 _ (Bytes.ascii "de") (@Runs.push _ _ 4 _ [] (@Runs.push _ _ 3 _
    (Bytes.ascii "abc") (@Runs.push _ _ 1 _ [] hgiven (by decide)) (by decide)) (by decide))
    (by decide)
  have h : Runs fiveChunks 3 p := @Runs.consume _ _ 1 _ happended (by decide)
  exact ⟨h, by decide, by decide, accounts_of_runs h⟩

end Pending

/-! ### Pending bytes of a run -/

variable {stream : Stream} {n : Nat} {s s' : Dispatch} {d : Direction}

/-- **Pending bytes that come about from the chunks of a stream**: of those before a position, some
that go one way were appended. -/
def Pending.RunsOn (stream : Stream) (n : Nat) (d : Direction) (p : Pending) : Prop :=
  ∃ arrived gone, Runs arrived gone p ∧ ∀ c ∈ arrived, c.1 < n ∧
    ∃ chunk, stream.chunks[c.1]? = some chunk ∧ chunk.direction = d ∧ chunk.content = c.2

open Pending Dispatch

theorem Pending.RunsOn.arrive {chunk : Chunk} (h : (s.pending d).RunsOn stream n d)
    (hc : stream.chunks[n]? = some chunk) :
    ((s.arrive n chunk).pending d).RunsOn stream (n + 1) d := by
  obtain ⟨arrived, gone, hruns, hof⟩ := h
  have hof' : ∀ c ∈ arrived, c.1 < n + 1 ∧ ∃ chunk, stream.chunks[c.1]? = some chunk ∧
      chunk.direction = d ∧ chunk.content = c.2 :=
    fun c hmem => ⟨Nat.lt_succ_of_lt (hof c hmem).1, (hof c hmem).2⟩
  rw [Dispatch.arrive]
  split
  · rw [pending_leave]
    exact ⟨arrived, gone, hruns, hof'⟩
  · rw [pending_setPending]
    split
    · rename_i hd
      subst hd
      refine ⟨_, gone, hruns.push chunk.content fun c hmem => (hof c hmem).1, ?_⟩
      rw [List.forall_mem_append, List.forall_mem_singleton]
      exact ⟨hof', Nat.lt_succ_self n, chunk, hc, rfl, rfl⟩
    · exact ⟨arrived, gone, hruns, hof'⟩

theorem Pending.RunsOn.takes {event : Event} (h : (s.pending d).RunsOn stream n d)
    (ht : s.Takes event s') : (s'.pending d).RunsOn stream n d := by
  rw [ht.pending]
  split
  · rename_i hd
    subst hd
    obtain ⟨arrived, gone, hruns, hof⟩ := h
    exact ⟨arrived, _, hruns.consume ht.front.length_le, hof⟩
  · exact h

theorem Pending.RunsOn.giveUp (h : (s.pending d).RunsOn stream n d) (id : Nat) (e : Direction)
    (why : Reason) : ((s.giveUp id e why).pending d).RunsOn stream n d := by
  rw [pending_giveUp]
  split
  · rename_i hd
    subst hd
    obtain ⟨arrived, gone, hruns, hof⟩ := h
    exact ⟨arrived, _, hruns.giveUp, hof⟩
  · exact h

/-- **In a run nothing else is done to pending bytes**: chunks of the direction are appended in
order, bytes that are there are taken, and directions are given up. -/
theorem Reached.runs (h : Reached stream n s) (d : Direction) :
    (s.pending d).RunsOn stream n d := by
  induction h with
  | opening =>
    have hnew : (Http.opening stream).pending d = {} := by cases d <;> rfl
    exact ⟨[], 0, hnew ▸ .new, nofun⟩
  | arrive _ hc ih => exact ih.arrive hc
  | step _ _ hstep ih =>
    exact hstep.keeps (P := fun s => (s.pending d).RunsOn stream _ d) (fun h ht => h.takes ht)
      (fun h e why => h.giveUp _ e why) ih

end HttpReplay.Http
