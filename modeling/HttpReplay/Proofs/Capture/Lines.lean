import HttpReplay.Capture.Transcript
import HttpReplay.Proofs.Base64
import HttpReplay.Proofs.Json.Records
import HttpReplay.Proofs.Time.Instants

/-!
# The lines of the protocol are read back

The line of a stream and the line of a chunk are read back as they were written: each member is
read back from its own value, and together they fill the record. Neither line holds a line end
or is blank.

* `HttpReplay.Metadata.ofText_render` – **the line of a stream**;
* `HttpReplay.Reader.chunkOf_render` – **the line of a chunk**;
* `HttpReplay.IsRecordLine` – what both lines look like.
-/

namespace HttpReplay

open Json (ReadsBack Fills)

/-! ### What can be written -/

/-- The numbers of a stream fit in their words. -/
structure Metadata.IsSendable (m : Metadata) : Prop where
  id_lt : m.id < Numeral.wordLimit
  clientPort_lt : m.clientPort < Numeral.capacity 16
  serverPort_lt : m.serverPort < Numeral.capacity 16

/-- **A stream that can be written**: its numbers fit in their words, and its times are those of
the calendar. Its texts and contents are any. -/
structure Stream.IsSendable (s : Stream) : Prop where
  metadata : s.metadata.IsSendable
  times : ∀ c ∈ s.chunks, c.time.IsValid

/-! ### The shape of a line -/

/-- **A line with a record**: it begins and ends with a bracket, and there is no line end in
it. -/
structure IsRecordLine (line : List Char) : Prop where
  head : line.head? = some '{'
  last : line.getLast? = some '}'
  newline_notMem : '\n' ∉ line

theorem isRecordLine_renderObject {members : List (String × List Char)}
    (h : ∀ m ∈ members, '\n' ∉ m.2) : IsRecordLine (Json.renderObject members) :=
  ⟨Json.head?_renderObject members, Json.getLast?_renderObject members,
    Json.newline_notMem_renderObject h⟩

/-! ### Streams -/

namespace Metadata

variable {m : Metadata}

theorem fills_draft (h : m.IsSendable) :
    Fills Draft.step {} [
        ("StreamID", Numeral.decimal m.id),
        ("ClientHost", Json.renderText m.clientHost.toList),
        ("ClientPort", Numeral.decimal m.clientPort),
        ("ServerHost", Json.renderText m.serverHost.toList),
        ("ServerPort", Numeral.decimal m.serverPort),
        ("Protocol", Json.renderText m.protocol.toList)]
      ⟨some m.id, some m.clientHost, some m.clientPort, some m.serverHost, some m.serverPort,
        some m.protocol⟩ := by
  have hport : Numeral.capacity 16 ≤ Numeral.wordLimit := by decide
  have hid : ∀ d : Draft, d.step "StreamID" =
      .once "StreamID" d.id readId fun a => { d with id := some a } := fun _ => rfl
  have hclientHost : ∀ d : Draft, d.step "ClientHost" =
      .once "ClientHost" d.clientHost Json.text fun a => { d with clientHost := some a } :=
    fun _ => rfl
  have hclientPort : ∀ d : Draft, d.step "ClientPort" =
      .once "ClientPort" d.clientPort readPort fun a => { d with clientPort := some a } :=
    fun _ => rfl
  have hserverHost : ∀ d : Draft, d.step "ServerHost" =
      .once "ServerHost" d.serverHost Json.text fun a => { d with serverHost := some a } :=
    fun _ => rfl
  have hserverPort : ∀ d : Draft, d.step "ServerPort" =
      .once "ServerPort" d.serverPort readPort fun a => { d with serverPort := some a } :=
    fun _ => rfl
  have hprotocol : ∀ d : Draft, d.step "Protocol" =
      .once "Protocol" d.protocol Json.text fun a => { d with protocol := some a } := fun _ => rfl
  refine .once (hid _) (Json.readsBack_natural h.id_lt (Nat.le_refl _)) ?_
  refine .once (hclientHost _) (Json.readsBack_text m.clientHost) ?_
  refine .once (hclientPort _) (Json.readsBack_natural h.clientPort_lt hport) ?_
  refine .once (hserverHost _) (Json.readsBack_text m.serverHost) ?_
  refine .once (hserverPort _) (Json.readsBack_natural h.serverPort_lt hport) ?_
  refine .once (hprotocol _) (Json.readsBack_text m.protocol) ?_
  exact .nil

/-- **The line of a stream is read back.** -/
theorem ofText_render (h : m.IsSendable) : ofText (String.ofList m.render) = .ok m :=
  Json.whole_record_renderObject (fills_draft h) (List.cons_ne_nil _ _) rfl

theorem isRecordLine_render (m : Metadata) : IsRecordLine m.render := by
  refine isRecordLine_renderObject fun member hm => ?_
  simp only [List.mem_cons, List.not_mem_nil, or_false] at hm
  rcases hm with rfl | rfl | rfl | rfl | rfl | rfl
  · exact Json.newline_notMem_decimal _
  · exact Json.newline_notMem_renderText _
  · exact Json.newline_notMem_decimal _
  · exact Json.newline_notMem_renderText _
  · exact Json.newline_notMem_decimal _
  · exact Json.newline_notMem_renderText _

end Metadata

/-! ### Chunks -/

theorem Direction.readsBack_render (d : Direction) : ReadsBack Direction.read d.render d := by
  intro rest _
  have hname : ofName? (String.ofList d.name.toList) = some d := by
    rw [String.ofList_toList]
    cases d <;> decide
  rw [render, Json.renderText_append, read, Json.atValue_cons rfl]
  simp only [nameTail, Json.textTail_flatMap, bind, Except.bind, hname]
  rfl

namespace ChunkRecord

theorem readsBack_time {t : Instant} (h : t.IsValid) :
    ReadsBack readTime (Json.renderText (Rfc3339.render t)) t := by
  intro rest _
  rw [readTime, Json.textOf_renderText]
  simp only [bind, Except.bind, Rfc3339.read_render h]
  rfl

/-- **The line of a chunk is read back**, with its content still in base64. -/
theorem ofText_render {r : ChunkRecord} (h : r.time.IsValid) :
    ofText (String.ofList r.render) = .ok r := by
  have hfills : Fills Draft.step {} [
        ("Direction", r.direction.render),
        ("Content", Json.renderText r.content.toList),
        ("Time", Json.renderText (Rfc3339.render r.time))]
      ⟨some r.direction, some r.content, some r.time⟩ := by
    have hdirection : ∀ d : Draft, d.step "Direction" =
        .once "Direction" d.direction Direction.read fun a => { d with direction := some a } :=
      fun _ => rfl
    have hcontent : ∀ d : Draft, d.step "Content" =
        .once "Content" d.content Json.text fun a => { d with content := some a } := fun _ => rfl
    have htime : ∀ d : Draft, d.step "Time" =
        .once "Time" d.time readTime fun a => { d with time := some a } := fun _ => rfl
    refine .once (hdirection _) (Direction.readsBack_render r.direction) ?_
    refine .once (hcontent _) (Json.readsBack_text r.content) ?_
    refine .once (htime _) (readsBack_time h) ?_
    exact .nil
  exact Json.whole_record_renderObject hfills (List.cons_ne_nil _ _) rfl

/-- **The content of a chunk is read back.** -/
theorem chunk_record (c : Chunk) : c.record.chunk = .ok c := by
  rw [chunk, Chunk.record, Base64.decode_encode]
  rfl

end ChunkRecord

/-- **The line of a chunk is read back**, wherever it stands. -/
theorem Reader.chunkOf_render {c : Chunk} (h : c.time.IsValid) (number : Nat) :
    chunkOf number (String.ofList c.render) = .ok c := by
  have htime : c.record.time.IsValid := h
  simp only [chunkOf, Chunk.render, ChunkRecord.ofText_render htime, ChunkRecord.chunk_record]

theorem Chunk.isRecordLine_render (c : Chunk) : IsRecordLine c.render := by
  refine isRecordLine_renderObject fun member hm => ?_
  simp only [List.mem_cons, List.not_mem_nil, or_false] at hm
  rcases hm with rfl | rfl | rfl
  · exact Json.newline_notMem_renderText _
  · exact Json.newline_notMem_renderText _
  · exact Json.newline_notMem_renderText _

/-- Every line of a stream is a line with a record. -/
theorem Stream.isRecordLine_of_mem_lines {s : Stream} {line : List Char} (h : line ∈ s.lines) :
    IsRecordLine line := by
  rcases List.mem_cons.mp h with rfl | h
  · exact s.metadata.isRecordLine_render
  · obtain ⟨c, -, rfl⟩ := List.mem_map.mp h
    exact c.isRecordLine_render

end HttpReplay
