import HttpReplay.Proofs.Checked.Bodies
import HttpReplay.Proofs.Http.Messages
import HttpReplay.Proofs.Http.Tails

/-!
# Heads and messages, read with positions

A machine tells a head by the number of bytes that it takes, and finds the body behind so many
bytes. It tries a head with more and more room for its fields, and a head that is read by the
lenient rules is gone through line by line, with a position as in a body. The first byte of a line
is looked at, and a field line is cut at its colon.

* `HttpReplay.Checked.lenientHead_eq` and `HttpReplay.Checked.widening_eq` are about heads;
* `HttpReplay.Checked.parseRequest_eq` and `HttpReplay.Checked.parseResponse_eq` say that messages
  are read within the buffer and the words, with the outcome of the library.
-/

namespace HttpReplay.Checked

open Http

variable {η μ : Type}

/-- The outcome of reading a head. -/
inductive Head (η : Type)
  /-- A head that takes so many bytes. -/
  | complete (length : Nat) (head : η)
  /-- The bytes end before the head does. -/
  | partly
  /-- The bytes are no head. -/
  | refused (why : Refusal)

/-- A head that was scanned off the front of a buffer. -/
def Head.ofScan (buffer : Bytes) : Scan η → Head η
  | .done head rest => .complete (buffer.length - rest.length) head
  | .more => .partly
  | .refused why => .refused why

/-! ### Lines -/

theorem findIdx?_lf (bytes : Bytes) :
    bytes.findIdx? (· == Byte.lf) = (Bytes.splitLine? bytes).map fun (line, _) => line.length := by
  induction bytes with
  | nil => rfl
  | cons b rest ih =>
    rw [List.findIdx?_cons, Bytes.splitLine?]
    by_cases hb : b = Byte.lf
    · simp [hb]
    · rw [if_neg hb, if_neg (by simpa using hb), ih, Option.map_map, Option.map_map]
      rfl

/-- A byte stands where the bytes before it end. -/
theorem findIdx?_eq (stop : UInt8) (bytes : Bytes) :
    bytes.findIdx? (· == stop) =
      match bytes.dropWhile (· != stop) with
      | [] => none
      | _ :: _ => some (bytes.takeWhile (· != stop)).length := by
  induction bytes with
  | nil => rfl
  | cons b rest ih =>
    rw [List.findIdx?_cons, List.dropWhile_cons, List.takeWhile_cons]
    by_cases hb : b = stop
    · simp [hb]
    · have hne : (b != stop) = true := by simpa using hb
      rw [if_neg (by simpa using hb), if_pos hne, if_pos hne, ih]
      cases rest.dropWhile (· != stop) <;> rfl

/-- The first line, without its end, and how many bytes it takes. -/
def headLine (bytes : Bytes) : Guarded (Option (Bytes × Nat)) :=
  match bytes.findIdx? (· == Byte.lf) with
  | none => return none
  | some n => do return some (Lenient.dropCr (← slice bytes 0 n), ← sum n 1)

theorem headLine_eq {bytes : Bytes} (hb : bytes.length < bufferLimit) :
    headLine bytes =
      .ok ((Lenient.line? bytes).map fun (line, rest) => (line, bytes.length - rest.length)) := by
  rw [headLine, findIdx?_lf, Lenient.line?]
  cases hs : Bytes.splitLine? bytes with
  | none => rfl
  | some p =>
    obtain ⟨line, rest⟩ := p
    have hbytes := Bytes.eq_append_of_splitLine? hs
    have hlen := congrArg List.length hbytes
    simp only [List.length_append, List.length_cons] at hlen
    have hused : bytes.length - rest.length = line.length + 1 := by omega
    simp only [Option.map_some]
    rw [slice_eq_ok (Nat.zero_le _) (by omega), sum_eq_ok (add_lt_wordLimit (by omega) (by omega)),
      hused, List.drop_zero, Nat.sub_zero, hbytes, List.take_left]
    rfl

/-! ### Fields by the lenient rules -/

/-- A field line that is not a continuation. -/
def field (line : Bytes) : Guarded (Option Field) :=
  match line.findIdx? (· == Byte.colon) with
  | none => return none
  | some n => do
    let name ← slice line 0 n
    if name ≠ [] ∧ name.all isToken then
      return some ⟨name, Bytes.trimBy Byte.isSpace (← sliceFrom line (← sum n 1))⟩
    else return none

theorem field_eq {line : Bytes} (hb : line.length < bufferLimit) :
    field line = .ok (Lenient.field? line) := by
  rw [field, findIdx?_eq, Lenient.field?]
  have hline := List.takeWhile_append_dropWhile (p := (· != Byte.colon)) (l := line)
  cases hd : line.dropWhile (· != Byte.colon) with
  | nil => rfl
  | cons c value =>
    rw [hd] at hline
    generalize line.takeWhile (· != Byte.colon) = name at hline ⊢
    subst hline
    rw [List.length_append, List.length_cons] at hb
    have hlen : (name ++ c :: value).length = name.length + 1 + value.length := by
      rw [List.length_append, List.length_cons]
      omega
    dsimp only
    rw [slice_eq_ok (Nat.zero_le _) (by omega), List.drop_zero, Nat.sub_zero, List.take_left,
      ok_bind]
    split
    · rw [sum_eq_ok (add_lt_wordLimit (by omega) (by omega)), ok_bind,
        sliceFrom_eq_ok (by omega), ok_bind, ← List.drop_drop, List.drop_left]
      rfl
    · rfl

/-- One more line of a head, which is not empty: the fields so far, the last one first, and what
they become. -/
def addLine (fields : List Field) (line : Bytes) : Guarded (Option (List Field)) := do
  if Byte.isBlank (← element line 0) then
    match fields with
    | [] => return none
    | last :: before => return some (Lenient.continued last line :: before)
  else return (← field line).map (· :: fields)

theorem addLine_eq {line : Bytes} (hb : line.length < bufferLimit) (hne : line ≠ [])
    (fields : List Field) : addLine fields line = .ok (Lenient.addLine? fields line) := by
  obtain ⟨first, rest, rfl⟩ := List.exists_cons_of_ne_nil hne
  rw [addLine.eq_def, Lenient.addLine?.eq_def, element_eq_ok (a := first) rfl, ok_bind,
    field_eq hb, List.head?_cons, Option.any_some]
  split
  · cases fields <;> rfl
  · rfl

/-- One line of a head: the position behind it and the fields so far, or else how the head ends. -/
def fieldRound (why : Refusal) (buffer : Bytes) :
    Nat × List Field → Guarded ((Nat × List Field) ⊕ Head (List Field))
  | (position, fields) => do
    match ← headLine (← sliceFrom buffer position) with
    | none => return .inr .partly
    | some (line, used) =>
      let position ← sum position used
      if line = [] then return .inr (.complete position fields.reverse)
      else
        match ← addLine fields line with
        | none => return .inr (.refused why)
        | some fields => return .inl (position, fields)

section Fields

variable {why : Refusal} {buffer line rest : Bytes} {position : Nat} {fields : List Field}

theorem length_dropCr_le (line : Bytes) : (Lenient.dropCr line).length ≤ line.length := by
  rw [Lenient.dropCr]
  split
  · simp
  · exact Nat.le_refl _

theorem length_le_of_line? {bytes : Bytes} (hl : Lenient.line? bytes = some (line, rest)) :
    line.length ≤ bytes.length := by
  obtain ⟨raw, hraw, -, rfl⟩ := Lenient.line?_eq_some.mp hl
  have hlen := congrArg List.length hraw
  rw [List.length_append] at hlen
  exact (length_dropCr_le raw).trans (by omega)

/-- What the lenient rules come to from a position on, behind the fields so far. -/
def fieldsFrom (why : Refusal) (buffer : Bytes) : Nat × List Field → Head (List Field)
  | (position, fields) =>
    Head.ofScan buffer (Lenient.fieldLines why fields (buffer.drop position))

/-- **A line advances the head.** -/
theorem fieldRound_advances (hb : buffer.length < bufferLimit) (s : Nat × List Field)
    (hp : s.1 ≤ buffer.length) :
    Advances (fieldRound why buffer) (·.1 ≤ buffer.length) (buffer.length - ·.1)
      (fieldsFrom why buffer) s := by
  obtain ⟨position, fields⟩ := s
  change position ≤ buffer.length at hp
  have hdrop : (buffer.drop position).length = buffer.length - position := List.length_drop
  rw [Advances, fieldRound, sliceFrom_eq_ok hp, ok_bind, headLine_eq (by omega), ok_bind]
  cases hl : Lenient.line? (buffer.drop position) with
  | none =>
    refine Or.inl ?_
    rw [fieldsFrom, Lenient.fieldLines_of_none hl]
    rfl
  | some p =>
    obtain ⟨line, rest⟩ := p
    have hlt := Lenient.length_lt_of_line? hl
    have hrest : buffer.drop (buffer.length - rest.length) = rest :=
      (List.suffix_iff_eq_drop.mp ((Lenient.suffix_of_line? hl).trans (List.drop_suffix _ _))).symm
    have hnext : sum position ((buffer.drop position).length - rest.length) =
        .ok (buffer.length - rest.length) := by
      rw [sum_eq_ok (by have := wordLimit_eq; omega)]
      refine congrArg Except.ok ?_
      omega
    have hline : line.length < bufferLimit := by
      have := length_le_of_line? hl
      omega
    simp only [Option.map_some, hnext, ok_bind]
    rw [fieldsFrom, Lenient.fieldLines_of_some hl]
    split
    · exact Or.inl rfl
    · rename_i hne
      rw [addLine_eq hline hne, ok_bind]
      cases Lenient.addLine? fields line with
      | none => exact Or.inl rfl
      | some fields' =>
        refine Or.inr ⟨(buffer.length - rest.length, fields'), rfl, by omega, ?_, ?_⟩
        · dsimp only
          omega
        · rw [fieldsFrom, hrest]

end Fields

/-! ### Heads by the lenient rules -/

/-- The head of a request by the lenient rules, to be refused for the given reason. -/
def lenientHead (why : Refusal) (buffer : Bytes) : Guarded (Head RequestHead) := do
  match ← headLine buffer with
  | none => return if Lenient.mayBeRequestLine buffer then .partly else .refused why
  | some (line, position) =>
    match Lenient.requestLine? line with
    | none => return .refused why
    | some (method, target, version) =>
      match ← loop (fieldRound why buffer) (buffer.length + 1) (position, []) with
      | .complete n fields =>
        return .complete n ⟨Bytes.latin1 method, Bytes.latin1 target, version, fields⟩
      | .partly => return .partly
      | .refused why => return .refused why

/-- **The lenient rules end**, within the buffer and the words. -/
theorem lenientHead_eq {buffer : Bytes} (hb : buffer.length < bufferLimit) (why : Refusal) :
    lenientHead why buffer = .ok (Head.ofScan buffer (Lenient.requestHead why buffer)) := by
  rw [lenientHead, headLine_eq hb, ok_bind]
  cases hl : Lenient.line? buffer with
  | none =>
    rw [Lenient.requestHead_of_none hl]
    simp only [Option.map_none]
    split <;> rfl
  | some p =>
    obtain ⟨line, rest⟩ := p
    rw [Lenient.requestHead_of_some hl]
    simp only [Option.map_some]
    cases hr : Lenient.requestLine? line with
    | none => rfl
    | some parts =>
      obtain ⟨method, target, version⟩ := parts
      have hrest : buffer.drop (buffer.length - rest.length) = rest :=
        (List.suffix_iff_eq_drop.mp (Lenient.suffix_of_line? hl)).symm
      have hend : loop (fieldRound why buffer) (buffer.length + 1)
          (buffer.length - rest.length, []) =
            .ok (fieldsFrom why buffer (buffer.length - rest.length, [])) :=
        loop_eq_ok (fieldRound_advances hb) (Nat.sub_le _ _) (Nat.lt_succ_of_le (Nat.sub_le _ _))
      simp only [hend, ok_bind]
      rw [fieldsFrom, hrest]
      cases Lenient.fieldLines why [] rest <;> rfl

/-! ### Room for fields -/

/-- One attempt with a given room: twice the room if it was not enough, or else the outcome. -/
def roomRound (read : Nat → Scan η) (buffer : Bytes) (room : Nat) : Guarded (Nat ⊕ Head η) :=
  match read room with
  | .refused .tooManyHeaders =>
    if room < mostFields then do return .inl (← product room 2)
    else return .inr (.refused .tooManyHeaders)
  | outcome => return .inr (Head.ofScan buffer outcome)

/-- Try with more and more room. -/
def widening (read : Nat → Scan η) (buffer : Bytes) : Guarded (Head η) :=
  loop (roomRound read buffer) rooms.length 64

section Widening

variable {read : Nat → Scan η} {buffer : Bytes}

theorem roomRound_advances
    (hread : ∀ m ≤ mostFields, read m = read mostFields ∨ read m = .refused .tooManyHeaders)
    (room : Nat) (hroom : room ∈ rooms) :
    Advances (roomRound read buffer) (· ∈ rooms) (fun room => (rooms.filter (room < ·)).length)
      (fun _ => Head.ofScan buffer (read mostFields)) room := by
  have hle : ∀ m ∈ rooms, m ≤ mostFields := by decide
  have hdouble : ∀ m ∈ rooms, m < mostFields → m * 2 ∈ rooms ∧ m * 2 < Numeral.wordLimit ∧
      (rooms.filter (m * 2 < ·)).length < (rooms.filter (m < ·)).length := by decide
  rw [Advances, roomRound]
  split
  · rename_i hfull
    split
    · rename_i hlt
      obtain ⟨hmem, hword, hfewer⟩ := hdouble room hroom hlt
      rw [product_eq_ok hword]
      exact Or.inr ⟨room * 2, rfl, hmem, hfewer, rfl⟩
    · rename_i hge
      obtain rfl : room = mostFields := Nat.le_antisymm (hle room hroom) (Nat.not_lt.mp hge)
      rw [hfull]
      exact Or.inl rfl
  · rename_i hne
    rw [(hread room (hle room hroom)).resolve_right hne]
    exact Or.inl rfl

/-- **There is room in the end**, or there is none with the most: five attempts are enough. -/
theorem widening_eq
    (hread : ∀ m ≤ mostFields, read m = read mostFields ∨ read m = .refused .tooManyHeaders) :
    widening read buffer = .ok (Head.ofScan buffer (read mostFields)) :=
  loop_eq_ok (roomRound_advances hread) (by decide) (by decide)

end Widening

/-- The head of a request, by the strict rules and then by the lenient ones. -/
def requestHead (buffer : Bytes) : Guarded (Head RequestHead) := do
  match ← widening (Http.requestHead · buffer) buffer with
  | .refused why => if why.allowsLenience then lenientHead why buffer else return .refused why
  | outcome => return outcome

theorem requestHead_eq {buffer : Bytes} (hb : buffer.length < bufferLimit) :
    requestHead buffer = .ok (Head.ofScan buffer (anyRequestHead buffer)) := by
  rw [requestHead, widening_eq fun m hm => requestHead_of_le hm buffer, ok_bind,
    ← requestHeadWidening_eq, anyRequestHead]
  cases requestHeadWidening buffer with
  | done head rest => rfl
  | more => rfl
  | refused why =>
    simp only [Head.ofScan, lenientHead_eq hb]
    split <;> rfl

/-- The head of a response. -/
def responseHead (buffer : Bytes) : Guarded (Head ResponseHead) :=
  widening (Http.responseHead · buffer) buffer

theorem responseHead_eq (buffer : Bytes) :
    responseHead buffer = .ok (Head.ofScan buffer (responseHeadWidening buffer)) := by
  rw [responseHead, widening_eq fun m hm => responseHead_of_le hm buffer, responseHeadWidening_eq]

/-! ### Messages -/

/-- Read a message by its head and the framing that the head decides. -/
def parseBy (head : Guarded (Head η)) (framing : η → Option Framing) (message : η → Bytes → μ)
    (atEnd : Bool) (buffer : Bytes) : Guarded (Parsed μ) := do
  match ← head with
  | .partly => return .incomplete
  | .refused why => return .invalid (.head why)
  | .complete n head =>
    match framing head with
    | none => return .invalid .badLength
    | some framing =>
      match ← readBody framing atEnd (← sliceFrom buffer n) with
      | .complete length decoded => return .complete n length (message head decoded)
      | .incomplete => return .incomplete
      | .invalid => return .invalid .badChunks

theorem parseBy_eq {read : Bytes → Scan η} {framing : η → Option Framing} {message : η → Bytes → μ}
    {atEnd : Bool} {buffer : Bytes} (hb : buffer.length < bufferLimit) (ht : LeavesTail read) :
    parseBy (.ok (Head.ofScan buffer (read buffer))) framing message atEnd buffer =
      .ok (Http.parseBy read framing message atEnd buffer) := by
  rw [parseBy, Http.parseBy, ok_bind]
  cases hr : read buffer with
  | more => rfl
  | refused why => rfl
  | done head rest =>
    have hrest := ht.eq_drop hr
    simp only [Head.ofScan, parseBody]
    cases framing head with
    | none => rfl
    | some framing =>
      have hlen : rest.length ≤ buffer.length := (ht buffer head rest hr).length_le
      dsimp only
      rw [sliceFrom_eq_ok (Nat.sub_le _ _), ok_bind, hrest, readBody_eq (by omega), ok_bind]
      cases Http.readBody framing atEnd rest <;> rfl

/-- Read a request off the front of a buffer. -/
def parseRequest (atEnd : Bool) (buffer : Bytes) : Guarded (Parsed Request) :=
  parseBy (requestHead buffer) (fun head => requestFraming? head.fields) RequestHead.withBody atEnd
    buffer

/-- Read a response off the front of a buffer. -/
def parseResponse (atEnd : Bool) (method : Option String) (buffer : Bytes) :
    Guarded (Parsed Response) :=
  parseBy (responseHead buffer) (fun head => responseFraming? head.fields head.status method)
    ResponseHead.withBody atEnd buffer

/-- **A request is read** within the buffer and the words. -/
theorem parseRequest_eq {buffer : Bytes} (hb : buffer.length < bufferLimit) (atEnd : Bool) :
    parseRequest atEnd buffer = .ok (Http.parseRequest atEnd buffer) := by
  rw [parseRequest, requestHead_eq hb, parseBy_eq hb leavesTail_anyRequestHead,
    Http.parseRequest_eq]

/-- **A response is read** within the buffer and the words. -/
theorem parseResponse_eq {buffer : Bytes} (hb : buffer.length < bufferLimit) (atEnd : Bool)
    (method : Option String) :
    parseResponse atEnd method buffer = .ok (Http.parseResponse atEnd method buffer) := by
  rw [parseResponse, responseHead_eq, parseBy_eq hb leavesTail_responseHeadWidening,
    Http.parseResponse_eq]

end HttpReplay.Checked
