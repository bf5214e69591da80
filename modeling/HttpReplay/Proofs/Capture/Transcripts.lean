import HttpReplay.Capture.Answer
import HttpReplay.Proofs.Capture.Lines
import HttpReplay.Proofs.Text.Latin

/-!
# Transcripts are read back

A reader of a transcript finds in it the streams that were written, in order, and then the end of
the input. The bytes of the transcript fall apart into its lines because no line holds a line
feed; a blank line stays blank and the line of a record stays as it is when the reader drops the
line end; and each such line is read back as what it was written for.

* `HttpReplay.Reader.lines_bytesOf` – the lines of a transcript;
* `HttpReplay.Reader.chunks_own` and `HttpReplay.Reader.next_own` – the lines of one stream;
* `HttpReplay.Transcript.streams_eq` – **whole transcripts**, by induction on them;
* `HttpReplay.streams_of_transcript` – the theorem.
-/

namespace HttpReplay

/-! ### Lines -/

namespace InputLine

/-- The characters of a line that stand before its line feed. -/
def chars (l : InputLine) : List Char := l.text ++ (if l.hasReturn then ['\r'] else [])

/-- The bytes of a line that stand before its line feed. -/
def content (l : InputLine) : Bytes := Bytes.ofText (String.ofList l.chars)

variable {l : InputLine}

theorem bytes_eq (l : InputLine) : l.bytes = l.content ++ [Byte.lf] := by
  unfold bytes content chars
  cases l.hasReturn with
  | true =>
    simp only [if_true, Bytes.ofText_ofList, List.flatMap_append, List.append_assoc]
    rfl
  | false => simp

theorem lf_notMem_content (h : '\n' ∉ l.text) : Byte.lf ∉ l.content := by
  refine Bytes.lf_notMem_ofText ?_
  unfold chars
  cases l.hasReturn <;> simp [h]

/-- A line of a record, with its end. -/
theorem trimEnd_of_record (h : IsRecordLine l.text) :
    Reader.trimEnd (String.ofList l.chars) = String.ofList l.text := by
  obtain ⟨front, hfront⟩ := List.getLast?_eq_some_iff.mp h.last
  unfold Reader.trimEnd chars
  rw [String.toList_ofList, hfront]
  cases l.hasReturn with
  | true => simp
  | false => simp

theorem isBlank_trimEnd (h : l.IsBlank) :
    Reader.isBlank (Reader.trimEnd (String.ofList l.chars)) = true := by
  have hspace : ∀ c ∈ l.chars, Text.isSpace c = true := by
    intro c hc
    rcases List.mem_append.mp hc with hc | hc
    · exact List.all_eq_true.mp h.1 c hc
    · have hreturn : c = '\r' := by
        cases hr : l.hasReturn <;> simp [hr] at hc
        exact hc
      exact hreturn ▸ rfl
  unfold Reader.trimEnd Reader.isBlank
  rw [String.toList_ofList, String.toList_ofList, List.all_eq_true]
  intro c hc
  refine hspace c ?_
  exact List.mem_reverse.mp (List.dropWhile_sublist _ |>.subset (List.mem_reverse.mp hc))

theorem not_isBlank_of_record {line : List Char} (h : IsRecordLine line) :
    Reader.isBlank (String.ofList line) = false := by
  obtain ⟨rest, hrest⟩ : ∃ rest, line = '{' :: rest := by
    cases line with
    | nil => cases h.head
    | cons c rest => exact ⟨rest, by rw [Option.some.inj h.head]⟩
  rw [Reader.isBlank, String.toList_ofList, hrest]
  rfl

end InputLine

namespace Reader

theorem linesFrom_append {bytes : Bytes} (h : Byte.lf ∉ bytes) (current rest : Bytes) :
    linesFrom current (bytes ++ Byte.lf :: rest) = (current.reverse ++ bytes) :: lines rest := by
  induction bytes generalizing current with
  | nil => rw [List.nil_append, linesFrom, if_pos rfl, List.append_nil]; rfl
  | cons b bytes ih =>
    have hb : b ≠ Byte.lf := fun heq => h (heq ▸ List.mem_cons_self)
    rw [List.cons_append, linesFrom, if_neg hb, ih fun hm => h (List.mem_cons_of_mem b hm),
      List.reverse_cons, List.append_assoc, List.singleton_append]

/-- **The lines of a transcript** are those that were written. -/
theorem lines_bytesOf {written : List InputLine} (h : ∀ l ∈ written, '\n' ∉ l.text) :
    lines (InputLine.bytesOf written) = written.map InputLine.content := by
  induction written with
  | nil => rfl
  | cons l written ih =>
    obtain ⟨hl, hwritten⟩ := List.forall_mem_cons.mp h
    rw [InputLine.bytesOf, List.flatMap_cons, InputLine.bytes_eq, List.append_assoc,
      List.singleton_append, lines, linesFrom_append (InputLine.lf_notMem_content hl),
      List.map_cons, ← ih hwritten]
    rfl

/-- A reader before these lines that has read so many others. -/
def before (count : Nat) (written : List InputLine) : Reader :=
  { unread := written.map InputLine.content, count }

variable {count : Nat} {l : InputLine} {written : List InputLine}

theorem line_before (count : Nat) (l : InputLine) (written : List InputLine) :
    (before count (l :: written)).line =
      (.ok (some (trimEnd (String.ofList l.chars))), before (count + 1) written) := by
  simp only [line, before, List.map_cons, InputLine.content, Bytes.text?_ofText]

theorem line_before_nil (count : Nat) : (before count []).line = (.ok none, before count []) := rfl

/-! ### One stream -/

/-- Looking for the first line of a stream is looking at one line, and going on if it is blank. -/
theorem metadata_eq (r : Reader) :
    r.metadata =
      match r.line with
      | (.error fault, r) => (.error (.io fault), r)
      | (.ok none, r) => (.ok none, r)
      | (.ok (some text), r) =>
        if isBlank text then r.metadata
        else
          match Metadata.ofText text with
          | .ok m => (.ok (some m), r)
          | .error fault => (.error (.line r.count text fault), r) := by
  rw [metadata]
  split <;> rename_i heq <;> exact heq ▸ rfl

/-- Blank lines before a stream are skipped. -/
theorem metadata_blank (h : l.IsBlank) :
    (before count (l :: written)).metadata = (before (count + 1) written).metadata := by
  rw [metadata_eq, line_before]
  exact if_pos (InputLine.isBlank_trimEnd h)

theorem metadata_render {m : Metadata} (hm : m.IsSendable) (h : l.text = m.render) :
    (before count (l :: written)).metadata = (.ok (some m), before (count + 1) written) := by
  have hrecord := m.isRecordLine_render
  rw [metadata_eq, line_before, InputLine.trimEnd_of_record (h ▸ hrecord), h]
  simp only [InputLine.not_isBlank_of_record hrecord, Bool.false_eq_true, if_false,
    Metadata.ofText_render hm]

/-- Reading chunks is looking at one line, and going on if it is that of a chunk. -/
theorem chunks_eq (r : Reader) :
    r.chunks =
      match r.line with
      | (.error fault, r) => (.error (.io fault), r)
      | (.ok none, r) => (.ok ([], false), r)
      | (.ok (some text), r) =>
        if isBlank text then (.ok ([], true), r)
        else
          match chunkOf r.count text with
          | .error e => (.error e, r)
          | .ok c =>
            match r.chunks with
            | (.error e, r) => (.error e, r)
            | (.ok (cs, isEnded), r) => (.ok (c :: cs, isEnded), r) := by
  rw [chunks]
  split <;> rename_i heq <;> exact heq ▸ rfl

/-- The end of the input ends a stream. -/
theorem chunks_nil (count : Nat) :
    (before count []).chunks = (.ok ([], false), before count []) := by
  rw [chunks_eq, line_before_nil]

/-- A blank line ends a stream. -/
theorem chunks_blank (h : l.IsBlank) :
    (before count (l :: written)).chunks = (.ok ([], true), before (count + 1) written) := by
  rw [chunks_eq, line_before]
  exact if_pos (InputLine.isBlank_trimEnd h)

/-- **The chunks of a stream are read back**, whatever ends it. -/
theorem chunks_own {own : List InputLine} {cs : List Chunk} (htimes : ∀ c ∈ cs, c.time.IsValid)
    (hown : own.map (·.text) = cs.map Chunk.render) {isEnded : Bool} {r : Reader}
    (hend : (before (count + own.length) written).chunks = (.ok ([], isEnded), r)) :
    (before count (own ++ written)).chunks = (.ok (cs, isEnded), r) := by
  induction cs generalizing own count with
  | nil =>
    obtain rfl := List.map_eq_nil_iff.mp hown
    exact hend
  | cons c cs ih =>
    obtain ⟨l, own, rfl, hl, hown⟩ := List.map_eq_cons_iff.mp hown
    obtain ⟨htime, htimes⟩ := List.forall_mem_cons.mp htimes
    have hrecord := c.isRecordLine_render
    have hrest : (before (count + 1) (own ++ written)).chunks = (.ok (cs, isEnded), r) :=
      ih htimes hown (by rwa [List.length_cons, Nat.add_comm own.length, ← Nat.add_assoc] at hend)
    rw [List.cons_append, chunks_eq, line_before, InputLine.trimEnd_of_record (hl ▸ hrecord), hl]
    simp only [InputLine.not_isBlank_of_record hrecord, Bool.false_eq_true, if_false,
      chunkOf_render htime, hrest]

/-- **A stream is read back**, whatever ends it. -/
theorem next_own {own : List InputLine} {s : Stream} (hs : s.IsSendable)
    (hown : own.map (·.text) = s.lines) {isEnded : Bool} {r : Reader}
    (hend : (before (count + own.length) written).chunks = (.ok ([], isEnded), r)) :
    ∃ log, (before count (own ++ written)).next = (.ok (some s), r, log) := by
  obtain ⟨l, own, rfl, hl, hown⟩ := List.map_eq_cons_iff.mp hown
  have hchunks : (before (count + 1) (own ++ written)).chunks = (.ok (s.chunks, isEnded), r) :=
    chunks_own hs.times hown
      (by rwa [List.length_cons, Nat.add_comm own.length, ← Nat.add_assoc] at hend)
  rw [next, List.cons_append, metadata_render hs.metadata hl]
  simp only [hchunks]
  exact ⟨_, rfl⟩

/-! ### All streams -/

theorem streams_of_next {r r' : Reader} {s : Stream} {log : Log}
    (h : r.next = (.ok (some s), r', log)) :
    r.streams = ((s, log) :: r'.streams.1, r'.streams.2) := by
  rw [streams]
  split <;> rename_i heq <;> rw [h] at heq <;> cases heq
  rfl

theorem streams_nil (count : Nat) : (before count []).streams = ([], .ok count) := by
  have hnext : (before count []).next = (.ok none, before count [], []) := by
    rw [next, metadata_eq, line_before_nil]
  rw [streams]
  split <;> rename_i heq <;> rw [hnext] at heq <;> cases heq
  rfl

/-- Blank lines between streams change nothing. -/
theorem streams_blank (h : l.IsBlank) :
    (before count (l :: written)).streams = (before (count + 1) written).streams := by
  have hnext : (before count (l :: written)).next = (before (count + 1) written).next := by
    rw [next, next, metadata_blank h]
  rw [streams, streams, hnext]

end Reader

/-! ### Transcripts -/

namespace Transcript

open Reader

variable {written : List InputLine} {streams : List Stream}

theorem newline_notMem_own {s : Stream} {own : List InputLine}
    (h : own.map (·.text) = s.lines) : ∀ l ∈ own, '\n' ∉ l.text := by
  intro l hl
  have hmem : l.text ∈ s.lines := h ▸ List.mem_map_of_mem hl
  exact (Stream.isRecordLine_of_mem_lines hmem).newline_notMem

/-- No line of a transcript holds a line feed. -/
theorem newline_notMem (h : Transcript written streams) : ∀ l ∈ written, '\n' ∉ l.text := by
  induction h with
  | nil => exact fun l hl => absurd hl List.not_mem_nil
  | blank hblank _ ih =>
    intro l hl
    rcases List.mem_cons.mp hl with rfl | hl
    · exact hblank.2
    · exact ih l hl
  | stream hlines hblank _ ih =>
    intro l hl
    rcases List.mem_append.mp hl with hl | hl
    · exact newline_notMem_own hlines l hl
    · rcases List.mem_cons.mp hl with rfl | hl
      · exact hblank.2
      · exact ih l hl
  | last hlines => exact newline_notMem_own hlines

/-- **The streams of a transcript are read back**, wherever it stands. -/
theorem streams_eq (h : Transcript written streams) (hs : ∀ s ∈ streams, s.IsSendable)
    (count : Nat) :
    (before count written).streams.1.map (·.1) = streams ∧
      (before count written).streams.2 = .ok (count + written.length) := by
  induction h generalizing count with
  | nil =>
    rw [streams_nil]
    exact ⟨rfl, rfl⟩
  | @blank l written streams hblank _ ih =>
    obtain ⟨hstreams, hending⟩ := ih hs (count + 1)
    rw [streams_blank hblank]
    refine ⟨hstreams, hending.trans (congrArg Except.ok ?_)⟩
    rw [List.length_cons]
    omega
  | @stream s own l written streams hlines hblank _ ih =>
    obtain ⟨hsend, hs⟩ := List.forall_mem_cons.mp hs
    obtain ⟨hstreams, hending⟩ := ih hs (count + own.length + 1)
    obtain ⟨log, hnext⟩ := next_own hsend hlines (chunks_blank hblank)
    rw [streams_of_next hnext]
    refine ⟨?_, hending.trans (congrArg Except.ok ?_)⟩
    · rw [List.map_cons, hstreams]
    · rw [List.length_append, List.length_cons]
      omega
  | @last s own hlines =>
    obtain ⟨log, hnext⟩ := next_own (hs s (List.mem_singleton_self s)) hlines (chunks_nil _)
    rw [List.append_nil] at hnext
    rw [streams_of_next hnext, streams_nil]
    exact ⟨rfl, rfl⟩

end Transcript

/-- The chunks of an answer are written as the lines of a stream. -/
theorem Answer.text_eq (chunks : List Chunk) :
    Answer.text chunks =
      InputLine.bytesOf (chunks.map fun c => ⟨c.render, false⟩) ++ Answer.closing := by
  rw [Answer.text, Answer.pieces, List.flatMap_append, InputLine.bytesOf, List.flatMap_map,
    List.flatMap_assoc]
  rfl

/-- **The protocol reads back what it writes.** Let lines hold some streams: the line of each, the
lines of its chunks as answers have them, and blank lines before, between and behind the streams,
each line with either end. If the numbers of the streams fit in their words and their times are
those of the calendar, a reader of these lines finds exactly the streams, in order, and then comes
to the end of the input, having read all lines. And whatever the streams are, none of their lines
holds a line end or is blank. -/
theorem streams_of_transcript {written : List InputLine} {streams : List Stream}
    (h : Transcript written streams) (sendable : ∀ s ∈ streams, s.IsSendable) :
    let reader := Reader.ofBytes (InputLine.bytesOf written)
    (reader.streams.1.map (·.1) = streams ∧ reader.streams.2 = .ok written.length) ∧
      (∀ s ∈ streams, Answer.text s.chunks =
        InputLine.bytesOf (s.lines.tail.map fun line => ⟨line, false⟩) ++ Answer.closing) ∧
      ∀ s : Stream, ∀ line ∈ s.lines, '\n' ∉ line ∧ ¬ line.all Text.isSpace := by
  have hreader : Reader.ofBytes (InputLine.bytesOf written) = Reader.before 0 written := by
    rw [Reader.ofBytes, Reader.lines_bytesOf h.newline_notMem]
    rfl
  intro reader
  refine ⟨?_, fun s _ => ?_, fun s line hline => ?_⟩
  · have hstreams := h.streams_eq sendable 0
    rw [Nat.zero_add] at hstreams
    rw [show reader = Reader.before 0 written from hreader]
    exact hstreams
  · rw [Answer.text_eq, Stream.lines, List.tail_cons, List.map_map]
    rfl
  · have hrecord := Stream.isRecordLine_of_mem_lines hline
    have hblank := InputLine.not_isBlank_of_record hrecord
    rw [Reader.isBlank, String.toList_ofList] at hblank
    exact ⟨hrecord.newline_notMem, by rw [hblank]; exact Bool.false_ne_true⟩

/-- A stream with texts that need escapes, a leap second and a year before zero. -/
def oddStream : Stream where
  metadata :=
    { id := 18446744073709551615
      clientHost := "a\x22\\\n\x00\u2028"
      clientPort := 65535
      serverHost := ""
      serverPort := 0
      protocol := String.ofList [Char.ofNat 0x10FFFF] }
  chunks :=
    [⟨.clientToServer, [0, 10, 13, 255], ⟨1483228799, 1000000001⟩⟩,
      ⟨.serverToClient, [], ⟨-62167219201, 999000000⟩⟩]

theorem isSendable_oddStream : oddStream.IsSendable := by
  refine ⟨⟨by decide, by decide, by decide⟩, ?_⟩
  simp only [oddStream, List.forall_mem_cons, List.not_mem_nil, false_implies, implies_true,
    and_true]
  exact ⟨⟨by decide, .inr ⟨by decide, by decide⟩⟩, ⟨by decide, .inl (by decide)⟩⟩

/-- The lines of the stream twice, with blank lines before it and between, and at the second time
none behind it. -/
def oddLines : List InputLine :=
  ⟨['\t', '\u00A0'], true⟩ :: (oddStream.lines.map (⟨·, true⟩) ++
    ⟨[], false⟩ :: oddStream.lines.map (⟨·, false⟩))

/-- The transcript of a stream with odd texts and times, and what it is read as. -/
theorem streams_of_oddLines :
    (Transcript oddLines [oddStream, oddStream] ∧
        ∀ s ∈ [oddStream, oddStream], s.IsSendable) ∧
      let reader := Reader.ofBytes (InputLine.bytesOf oddLines)
      (reader.streams.1.map (·.1) = [oddStream, oddStream] ∧
          reader.streams.2 = .ok oddLines.length) ∧
        (∀ s ∈ [oddStream, oddStream], Answer.text s.chunks =
          InputLine.bytesOf (s.lines.tail.map fun line => ⟨line, false⟩) ++ Answer.closing) ∧
        ∀ s : Stream, ∀ line ∈ s.lines, '\n' ∉ line ∧ ¬ line.all Text.isSpace := by
  have hlines : ∀ hasReturn : Bool,
      (oddStream.lines.map fun line => (⟨line, hasReturn⟩ : InputLine)).map (·.text) =
        oddStream.lines := fun _ => by rw [List.map_map]; exact List.map_id _
  have h : Transcript oddLines [oddStream, oddStream] :=
    .blank ⟨by decide, by decide⟩
      (.stream (hlines true) ⟨by decide, by decide⟩ (.last (hlines false)))
  have sendable : ∀ s ∈ [oddStream, oddStream], s.IsSendable := by
    intro s hs
    simp only [List.mem_cons, List.not_mem_nil, or_false, or_self] at hs
    exact hs ▸ isSendable_oddStream
  exact ⟨⟨h, sendable⟩, streams_of_transcript h sendable⟩

end HttpReplay
