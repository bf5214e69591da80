import HttpReplay.Http.Message
import HttpReplay.Http.Scan

/-!
# Message heads

The head of a message is its first line and its field lines, up to the empty line that
ends them. This file reads heads by the rules of HTTP/1.1 with three liberties: a line may
end with a bare line feed, empty lines may stand in front of the message, and a target or
a header value may hold bytes beyond ASCII.

The reader has room for a given number of field lines and refuses a head with more.
`HttpReplay.Http.widening` starts with little room and tries again with more, up to a
limit; the last attempt decides.

* `HttpReplay.Http.requestHead` and `HttpReplay.Http.responseHead` read with a given room;
* `HttpReplay.Http.requestHeadWidening` and `HttpReplay.Http.responseHeadWidening` read
  with as much room as is needed.
-/

namespace HttpReplay.Http

/-! ### Classes of bytes -/

/-- The bytes of a token: letters, digits and fifteen marks. -/
def isToken (b : UInt8) : Bool :=
  Byte.isLetter b || Byte.isDigit b || (Bytes.ascii "!#$%&\x27*+-.^_\x60|~").contains b

/-- The bytes of a request target: all but blanks and control characters. -/
def isTarget (b : UInt8) : Bool := 33 ≤ b && b != Byte.del

/-- The bytes of a header value and of a reason: all but the control characters other than
the tab. -/
def isFieldText (b : UInt8) : Bool := b == Byte.tab || (32 ≤ b && b != Byte.del)

/-! ### Parts of the first line -/

/-- The method and the space after it. -/
def methodToken (bytes : Bytes) : Scan Bytes :=
  (upTo Byte.sp isToken .token bytes).ensure (· ≠ []) .token

/-- The target and the space after it. -/
def target (bytes : Bytes) : Scan String :=
  ((upTo Byte.sp isTarget .token bytes).ensure (· ≠ []) .token).bind fun name rest =>
    match Bytes.text? name with
    | some text => .done text rest
    | none => .refused .token

/-- The minor version in `HTTP/1.0` or `HTTP/1.1`. What begins like neither is refused
before all eight bytes have arrived. -/
def httpVersion (bytes : Bytes) : Scan Nat :=
  let word := bytes.take 8
  if word = Bytes.ascii "HTTP/1.1" then .done 1 (bytes.drop 8)
  else if word = Bytes.ascii "HTTP/1.0" then .done 0 (bytes.drop 8)
  else if word.length < 8 ∧ word.isPrefixOf (Bytes.ascii "HTTP/1.") then .more
  else .refused .version

/-- A single space. -/
def space (why : Refusal) : Bytes → Scan Unit
  | [] => .more
  | b :: rest => if b = Byte.sp then .done () rest else .refused why

/-- A decimal digit. -/
def digit : Bytes → Scan Nat
  | [] => .more
  | b :: rest => if Byte.isDigit b then .done (b.toNat - 48) rest else .refused .status

/-- The three digits of a status code. -/
def statusCode (bytes : Bytes) : Scan Nat :=
  (digit bytes).bind fun a rest => (digit rest).bind fun b rest => (digit rest).bind fun c rest =>
    .done (a * 100 + b * 10 + c) rest

/-- The reason up to the end of its line, or nothing where the line ends at once. A reason
with bytes beyond ASCII counts as empty. -/
def reason : Bytes → Scan String
  | [] => .more
  | b :: rest =>
    if b = Byte.sp then
      (restOfLine isFieldText .status rest).map fun text =>
        if text.all (· < 128) then Bytes.latin1 text else ""
    else (lineEnd .status (b :: rest)).map fun _ => ""

/-! ### Field lines -/

/-- One field line: a name, a colon and a value with blanks around it. -/
def fieldLine (bytes : Bytes) : Scan Field :=
  ((upTo Byte.colon isToken .headerName bytes).ensure (· ≠ []) .headerName).bind fun name rest =>
    (restOfLine isFieldText .headerValue rest).map fun value =>
      ⟨name, Bytes.trimBy Byte.isBlank value⟩

/-- Do the bytes begin with the end of a line? The answer leaves them where they are unless
they do. -/
def atLineEnd (bytes : Bytes) : Scan Bool :=
  match bytes with
  | [] => .more
  | b :: _ =>
    if b = Byte.lf ∨ b = Byte.cr then (lineEnd .newLine bytes).map fun _ => true
    else .done false bytes

/-- The field lines up to the empty line that ends the head, with room for so many. A line
for which there is no room is read before it is refused. -/
def fieldLines (room : Nat) (bytes : Bytes) : Scan (List Field) :=
  (atLineEnd bytes).bind fun ended rest =>
    if ended then .done [] rest
    else (fieldLine rest).bind fun field rest =>
      match room with
      | 0 => .refused .tooManyHeaders
      | room + 1 => (fieldLines room rest).map (field :: ·)

/-! ### Whole heads -/

/-- The first line and the field lines of a request. -/
structure RequestHead where
  method : String
  path : String
  version : Nat
  fields : List Field
  deriving Repr, DecidableEq

/-- The first line and the field lines of a response. -/
structure ResponseHead where
  version : Nat
  status : Nat
  reason : String
  fields : List Field
  deriving Repr, DecidableEq

/-- The head of a request, with room for so many field lines. -/
def requestHead (room : Nat) (bytes : Bytes) : Scan RequestHead :=
  (emptyLines bytes).bind fun _ rest =>
  (methodToken rest).bind fun method rest =>
  (target rest).bind fun path rest =>
  (httpVersion rest).bind fun version rest =>
  (lineEnd .newLine rest).bind fun _ rest =>
  (fieldLines room rest).map fun fields => ⟨Bytes.latin1 method, path, version, fields⟩

/-- The head of a response, with room for so many field lines. -/
def responseHead (room : Nat) (bytes : Bytes) : Scan ResponseHead :=
  (emptyLines bytes).bind fun _ rest =>
  (httpVersion rest).bind fun version rest =>
  (space .version rest).bind fun _ rest =>
  (statusCode rest).bind fun status rest =>
  (reason rest).bind fun reason rest =>
  (fieldLines room rest).map fun fields => ⟨version, status, reason, fields⟩

/-! ### Every head takes a byte -/

open Scan

theorem leaves_methodToken (bytes : Bytes) : (methodToken bytes).Leaves (bytes.length - 1) :=
  (leaves_upTo _ _ _ _).ensure _ _

theorem leaves_target (bytes : Bytes) : (target bytes).Leaves (bytes.length - 1) := by
  refine ((leaves_upTo _ _ _ _).ensure _ _).bind fun name rest h => ?_
  split
  · exact leaves_done h
  · exact leaves_refused

theorem leaves_httpVersion (bytes : Bytes) : (httpVersion bytes).Leaves (bytes.length - 1) := by
  unfold httpVersion
  dsimp only
  split
  · exact leaves_done (by simp only [List.length_drop]; omega)
  · split
    · exact leaves_done (by simp only [List.length_drop]; omega)
    · split
      · exact leaves_more
      · exact leaves_refused

theorem leaves_space (why : Refusal) (bytes : Bytes) :
    (space why bytes).Leaves (bytes.length - 1) := by
  cases bytes with
  | nil => exact leaves_more
  | cons b rest =>
    simp only [space]
    split
    · exact leaves_done (by simp)
    · exact leaves_refused

theorem leaves_digit (bytes : Bytes) : (digit bytes).Leaves (bytes.length - 1) := by
  cases bytes with
  | nil => exact leaves_more
  | cons b rest =>
    simp only [digit]
    split
    · exact leaves_done (by simp)
    · exact leaves_refused

theorem leaves_statusCode (bytes : Bytes) : (statusCode bytes).Leaves (bytes.length - 1) :=
  (leaves_digit bytes).bind fun _ r₁ h₁ => (leaves_digit r₁).bind fun _ r₂ h₂ =>
    (leaves_digit r₂).bind fun _ r₃ h₃ => leaves_done (by omega)

theorem leaves_reason (bytes : Bytes) : (reason bytes).Leaves (bytes.length - 1) := by
  cases bytes with
  | nil => exact leaves_more
  | cons b rest =>
    simp only [reason]
    split
    · exact ((leaves_restOfLine _ _ _).map _).mono (by simp only [List.length_cons]; omega)
    · exact (leaves_lineEnd _ _).map _

theorem leaves_fieldLine (bytes : Bytes) : (fieldLine bytes).Leaves (bytes.length - 1) :=
  ((leaves_upTo _ _ _ _).ensure _ _).bind fun _ rest h =>
    ((leaves_restOfLine _ _ rest).map _).mono (by omega)

theorem leaves_atLineEnd (bytes : Bytes) : (atLineEnd bytes).Leaves bytes.length := by
  cases bytes with
  | nil => exact leaves_more
  | cons b rest =>
    simp only [atLineEnd]
    split
    · exact ((leaves_lineEnd _ _).map _).mono (by omega)
    · exact leaves_done (Nat.le_refl _)

theorem leaves_fieldLines (room : Nat) (bytes : Bytes) :
    (fieldLines room bytes).Leaves bytes.length := by
  induction room generalizing bytes with
  | zero =>
    unfold fieldLines
    refine (leaves_atLineEnd bytes).bind fun ended rest h => ?_
    split
    · exact leaves_done h
    · exact (leaves_fieldLine rest).bind fun _ _ _ => leaves_refused
  | succ room ih =>
    unfold fieldLines
    refine (leaves_atLineEnd bytes).bind fun ended rest h => ?_
    split
    · exact leaves_done h
    · exact (leaves_fieldLine rest).bind fun _ r hr => ((ih r).map _).mono (by omega)

theorem leaves_requestHead (room : Nat) (bytes : Bytes) :
    (requestHead room bytes).Leaves (bytes.length - 1) :=
  (leaves_emptyLines bytes).bind fun _ r₀ h₀ =>
  (leaves_methodToken r₀).bind fun _ r₁ h₁ =>
  (leaves_target r₁).bind fun _ r₂ h₂ =>
  (leaves_httpVersion r₂).bind fun _ r₃ h₃ =>
  (leaves_lineEnd _ r₃).bind fun _ r₄ h₄ =>
    ((leaves_fieldLines room r₄).map _).mono (by omega)

theorem leaves_responseHead (room : Nat) (bytes : Bytes) :
    (responseHead room bytes).Leaves (bytes.length - 1) :=
  (leaves_emptyLines bytes).bind fun _ r₀ h₀ =>
  (leaves_httpVersion r₀).bind fun _ r₁ h₁ =>
  (leaves_space _ r₁).bind fun _ r₂ h₂ =>
  (leaves_statusCode r₂).bind fun _ r₃ h₃ =>
  (leaves_reason r₃).bind fun _ r₄ h₄ =>
    ((leaves_fieldLines room r₄).map _).mono (by omega)

/-! ### Making room -/

/-- How many field lines there is room for, attempt after attempt. -/
def rooms : List Nat := [64, 128, 256, 512, 1024]

/-- The room of the last attempt. -/
def mostFields : Nat := 1024

/-- Read with more and more room until there is enough. -/
def widening {α : Type} (read : Nat → Scan α) : List Nat → Scan α
  | [] => .refused .tooManyHeaders
  | room :: rest =>
    match read room with
    | .refused .tooManyHeaders => widening read rest
    | outcome => outcome

/-- The head of a request, with as much room as it needs. -/
def requestHeadWidening (bytes : Bytes) : Scan RequestHead :=
  widening (requestHead · bytes) rooms

/-- The head of a response, with as much room as it needs. -/
def responseHeadWidening (bytes : Bytes) : Scan ResponseHead :=
  widening (responseHead · bytes) rooms

theorem leaves_widening {α : Type} {read : Nat → Scan α} {n : Nat}
    (h : ∀ room, (read room).Leaves n) (rooms : List Nat) : (widening read rooms).Leaves n := by
  induction rooms with
  | nil => exact leaves_refused
  | cons room rest ih =>
    unfold widening
    split
    · exact ih
    · exact h room

theorem leaves_requestHeadWidening (bytes : Bytes) :
    (requestHeadWidening bytes).Leaves (bytes.length - 1) :=
  leaves_widening (leaves_requestHead · bytes) rooms

theorem leaves_responseHeadWidening (bytes : Bytes) :
    (responseHeadWidening bytes).Leaves (bytes.length - 1) :=
  leaves_widening (leaves_responseHead · bytes) rooms

end HttpReplay.Http
