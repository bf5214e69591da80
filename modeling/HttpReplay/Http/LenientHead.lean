import HttpReplay.Http.Head

/-!
# Lenient request heads

Two kinds of request heads are in use that the rules of `HttpReplay.Http.requestHead`
refuse: a target whose bytes are not UTF-8, and a field line that is folded, that is,
continued on lines that begin with a blank. This file reads such heads line by line. The
target is taken byte for byte, and a continuation is joined to the value before it with a
space.

What is no head by these rules either is refused for the reason for which it was refused
in the first place, so that the reader's answer never depends on how often it tried.
-/

namespace HttpReplay.Http.Lenient

/-- A line without the carriage return at its end. -/
def dropCr (line : Bytes) : Bytes :=
  if line.getLast? = some Byte.cr then line.dropLast else line

/-- The first line, without its end, and the bytes after it. -/
def line? (bytes : Bytes) : Option (Bytes × Bytes) :=
  (Bytes.splitLine? bytes).map fun (line, rest) => (dropCr line, rest)

theorem length_lt_of_line? {bytes line rest : Bytes} (h : line? bytes = some (line, rest)) :
    rest.length < bytes.length := by
  simp only [line?, Option.map_eq_some_iff] at h
  obtain ⟨⟨l, r⟩, h1, h2⟩ := h
  simp only [Prod.mk.injEq] at h2
  obtain ⟨-, rfl⟩ := h2
  rw [Bytes.eq_append_of_splitLine? h1]
  simp only [List.length_append, List.length_cons]
  omega

/-! ### The request line -/

/-- The bytes before the first space and those after it. -/
def splitSpace? (bytes : Bytes) : Option (Bytes × Bytes) :=
  match bytes.dropWhile (· != Byte.sp) with
  | [] => none
  | _ :: rest => some (bytes.takeWhile (· != Byte.sp), rest)

/-- The minor version that the last word of a request line names. -/
def version? (word : Bytes) : Option Nat :=
  if word = Bytes.ascii "HTTP/1.1" then some 1
  else if word = Bytes.ascii "HTTP/1.0" then some 0
  else none

/-- Method, target and minor version of a request line. -/
def requestLine? (line : Bytes) : Option (Bytes × Bytes × Nat) := do
  let (method, rest) ← splitSpace? line
  let (target, word) ← splitSpace? rest
  let version ← version? word
  if method ≠ [] ∧ method.all isToken ∧ target ≠ [] ∧ target.all isTarget then
    return (method, target, version)
  else none

/-- Bytes that may yet become a request line: nothing but a token before the first space. -/
def mayBeRequestLine (bytes : Bytes) : Bool := (bytes.takeWhile (· != Byte.sp)).all isToken

/-! ### The field lines -/

/-- A field line that is not a continuation. -/
def field? (line : Bytes) : Option Field :=
  let name := line.takeWhile (· != Byte.colon)
  match line.dropWhile (· != Byte.colon) with
  | [] => none
  | _ :: value =>
    if name ≠ [] ∧ name.all isToken then some ⟨name, Bytes.trimBy Byte.isSpace value⟩ else none

/-- A field whose value goes on with another line. -/
def continued (f : Field) (line : Bytes) : Field :=
  { f with value := f.value ++ Byte.sp :: Bytes.trimBy Byte.isSpace line }

/-- One more line of a head: the fields so far, the last one first, and what they become. -/
def addLine? (fields : List Field) (line : Bytes) : Option (List Field) :=
  if line.head?.any Byte.isBlank then
    match fields with
    | [] => none
    | last :: before => some (continued last line :: before)
  else (field? line).map (· :: fields)

/-- The field lines up to the empty line that ends the head, after those already read. -/
def fieldLines (why : Refusal) (fields : List Field) (bytes : Bytes) : Scan (List Field) :=
  match _h : line? bytes with
  | none => .more
  | some (line, rest) =>
    if line = [] then .done fields.reverse rest
    else
      match addLine? fields line with
      | none => .refused why
      | some fields => fieldLines why fields rest
termination_by bytes.length
decreasing_by exact length_lt_of_line? _h

/-- **The head of a request by the lenient rules**, to be refused for the given reason. -/
def requestHead (why : Refusal) (bytes : Bytes) : Scan RequestHead :=
  match line? bytes with
  | none => if mayBeRequestLine bytes then .more else .refused why
  | some (line, rest) =>
    match requestLine? line with
    | none => .refused why
    | some (method, target, version) =>
      (fieldLines why [] rest).map fun fields =>
        ⟨Bytes.latin1 method, Bytes.latin1 target, version, fields⟩

/-! ### Every head takes a byte -/

theorem leaves_fieldLines (why : Refusal) (fields : List Field) (bytes : Bytes) :
    (fieldLines why fields bytes).Leaves bytes.length := by
  fun_induction fieldLines why fields bytes with
  | case1 => exact Scan.leaves_more
  | case2 _ _ rest h => exact Scan.leaves_done (Nat.le_of_lt (length_lt_of_line? h))
  | case3 => exact Scan.leaves_refused
  | case4 _ _ _ rest h _ _ _ ih => exact ih.mono (Nat.le_of_lt (length_lt_of_line? h))

theorem leaves_requestHead (why : Refusal) (bytes : Bytes) :
    (requestHead why bytes).Leaves (bytes.length - 1) := by
  unfold requestHead
  split
  · split
    · exact Scan.leaves_more
    · exact Scan.leaves_refused
  · rename_i line rest h
    have := length_lt_of_line? h
    split
    · exact Scan.leaves_refused
    · exact ((leaves_fieldLines _ _ _).map _).mono (by omega)

end HttpReplay.Http.Lenient
