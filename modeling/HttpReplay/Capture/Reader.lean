import HttpReplay.Capture.Error
import HttpReplay.Capture.Record
import HttpReplay.Log
import HttpReplay.Text.Space

/-!
# Reading streams

The input is a sequence of lines. Blank lines stand between the streams: those before a stream
are skipped, then its first line is read and the lines of its chunks, up to a blank line or the
end of the input.

A reader holds the lines that are still unread and the number of those it has read. It can be
asked for more after a failure, and then goes on behind the line that failed. A line that is
not UTF-8 is passed over without being counted.

* `HttpReplay.Reader.ofBytes` is a reader at the start of its input;
* `HttpReplay.Reader.next` reads one stream;
* `HttpReplay.Reader.streams` reads all of them.
-/

namespace HttpReplay

/-- **A reader** of streams. -/
structure Reader where
  /-- The lines that are unread, without their line feeds. -/
  unread : List Bytes
  /-- What happens behind the last line, if it is not the end of the input. -/
  failure : Option IoFault := none
  /-- How many lines have been read. -/
  count : Nat := 0
  deriving Repr, DecidableEq

namespace Reader

/-! ### Lines -/

/-- The bytes of the line that is being read, reversed, and the lines behind it. What stands
behind the last line feed is a line only if it is not empty. -/
def linesFrom (current : Bytes) : Bytes → List Bytes
  | [] => if current = [] then [] else [current.reverse]
  | b :: bytes =>
    if b = Byte.lf then current.reverse :: linesFrom [] bytes else linesFrom (b :: current) bytes

/-- The lines of some bytes. -/
def lines (bytes : Bytes) : List Bytes := linesFrom [] bytes

/-- A reader at the start of its input. -/
def ofBytes (bytes : Bytes) : Reader := { unread := lines bytes }

/-- A reader of an input that cannot be read. -/
def ofFault (fault : IoFault) : Reader := { unread := [], failure := some fault }

/-- How many bytes are unread. A line feed is counted for the last line also where it has none. -/
def size (r : Reader) : Nat := r.unread.foldl (fun n line => n + line.length + 1) 0

/-- A line without the carriage returns and line feeds at its end. -/
def trimEnd (line : String) : String :=
  String.ofList (line.toList.reverse.dropWhile fun c => c == '\r' || c == '\n').reverse

/-- Does a line end a stream? -/
def isBlank (line : String) : Bool := line.toList.all Text.isSpace

/-- Read a line, if there is one. -/
def line (r : Reader) : Except IoFault (Option String) × Reader :=
  match r.unread with
  | [] =>
    match r.failure with
    | some fault => (.error fault, r)
    | none => (.ok none, r)
  | bytes :: unread =>
    match Bytes.text? bytes with
    | none => (.error .invalidText, { r with unread })
    | some text => (.ok (some (trimEnd text)), { r with unread, count := r.count + 1 })

theorem unread_lt_of_line {r r' : Reader} {text : String} (h : r.line = (.ok (some text), r')) :
    r'.unread.length < r.unread.length := by
  unfold line at h
  split at h
  · split at h <;> simp at h
  · rename_i heq
    split at h
    · simp at h
    · simp only [Prod.mk.injEq] at h
      rw [← h.2, heq]
      simp

/-! ### Streams -/

/-- Read the first line of the next stream, if there is one. -/
def metadata (r : Reader) : Except SessionError (Option Metadata) × Reader :=
  match _h : r.line with
  | (.error fault, r) => (.error (.io fault), r)
  | (.ok none, r) => (.ok none, r)
  | (.ok (some text), r) =>
    if isBlank text then r.metadata
    else
      match Metadata.ofText text with
      | .ok m => (.ok (some m), r)
      | .error fault => (.error (.line r.count text fault), r)
termination_by r.unread.length
decreasing_by exact unread_lt_of_line _h

/-- The chunk of a line. -/
def chunkOf (number : Nat) (text : String) : Except SessionError Chunk :=
  match ChunkRecord.ofText text with
  | .error fault => .error (.line number text fault)
  | .ok record =>
    match record.chunk with
    | .error e => .error (.content number e)
    | .ok c => .ok c

/-- Read the lines of chunks up to the end of the stream. Also told is whether a blank line
ended it. -/
def chunks (r : Reader) : Except SessionError (List Chunk × Bool) × Reader :=
  match _h : r.line with
  | (.error fault, r) => (.error (.io fault), r)
  | (.ok none, r) => (.ok ([], false), r)
  | (.ok (some text), r) =>
    if isBlank text then (.ok ([], true), r)
    else
      match chunkOf r.count text with
      | .error e => (.error e, r)
      | .ok c =>
        match r.chunks with
        | (.error e, r) => (.error e, r)
        | (.ok (cs, isEnded), r) => (.ok (c :: cs, isEnded), r)
termination_by r.unread.length
decreasing_by exact unread_lt_of_line _h

/-- What the log says of a stream that was read. -/
def report (m : Metadata) (count : Nat) (isEnded : Bool) (lines : Nat) : Log :=
  (if isEnded then [] else Log.one .debug s!"[{m.id}] input ended without stream terminator") ++
    Log.one .trace s!"[{m.id}] read {count} chunk(s) up to line {lines}"

/-- **Read the next stream**, if there is one. -/
def next (r : Reader) : Except SessionError (Option Stream) × Reader × Log :=
  match r.metadata with
  | (.error e, r) => (.error e, r, [])
  | (.ok none, r) => (.ok none, r, [])
  | (.ok (some m), r) =>
    match r.chunks with
    | (.error e, r) => (.error e, r, [])
    | (.ok (cs, isEnded), r) => (.ok (some ⟨m, cs⟩), r, report m cs.length isEnded r.count)

/-! ### All streams -/

theorem unread_le_of_line (r : Reader) : r.line.2.unread.length ≤ r.unread.length := by
  unfold line
  split
  · split <;> simp
  · rename_i heq
    split <;> simp [heq]

theorem unread_lt_of_metadata {r r' : Reader} {m : Metadata}
    (h : r.metadata = (.ok (some m), r')) : r'.unread.length < r.unread.length := by
  fun_induction metadata r with
  | case1 => simp at h
  | case2 => simp at h
  | case3 r text r'' hl _ ih => exact Nat.lt_trans (ih h) (unread_lt_of_line hl)
  | case4 r text r'' hl _ _ _ =>
    simp only [Prod.mk.injEq] at h
    exact h.2 ▸ unread_lt_of_line hl
  | case5 => simp at h

theorem unread_le_of_chunks (r : Reader) : r.chunks.2.unread.length ≤ r.unread.length := by
  fun_induction chunks r with
  | case1 r _ _ hl => simpa [hl] using unread_le_of_line r
  | case2 r _ hl => simpa [hl] using unread_le_of_line r
  | case3 r _ _ hl => exact Nat.le_of_lt (unread_lt_of_line hl)
  | case4 r _ _ hl => exact Nat.le_of_lt (unread_lt_of_line hl)
  | case5 r _ _ hl _ _ _ _ _ h ih =>
    rw [h] at ih
    exact Nat.le_trans ih (Nat.le_of_lt (unread_lt_of_line hl))
  | case6 r _ _ hl _ _ _ _ _ _ h ih =>
    rw [h] at ih
    exact Nat.le_trans ih (Nat.le_of_lt (unread_lt_of_line hl))

/-- A stream takes its first line at least. -/
theorem unread_lt_of_next {r r' : Reader} {s : Stream} {log : Log}
    (h : r.next = (.ok (some s), r', log)) : r'.unread.length < r.unread.length := by
  unfold next at h
  split at h
  · simp at h
  · simp at h
  · rename_i m r₁ hm
    have hc := unread_le_of_chunks r₁
    split at h
    · simp at h
    · rename_i cs isEnded r₂ hr
      rw [hr] at hc
      simp only [Prod.mk.injEq] at h
      rw [← h.2.1]
      exact Nat.lt_of_le_of_lt hc (unread_lt_of_metadata hm)

/-- **Read all streams** up to the end of the input or the first failure: the streams with
what the log says of each, and the number of lines that were read, unless it failed. -/
def streams (r : Reader) : List (Stream × Log) × Except SessionError Nat :=
  match _h : r.next with
  | (.error e, _, _) => ([], .error e)
  | (.ok none, r, _) => ([], .ok r.count)
  | (.ok (some s), r, log) =>
    let (rest, ending) := r.streams
    ((s, log) :: rest, ending)
termination_by r.unread.length
decreasing_by exact unread_lt_of_next _h

end Reader

end HttpReplay
