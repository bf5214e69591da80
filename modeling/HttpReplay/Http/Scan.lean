import HttpReplay.Bytes

/-!
# Scanning a message head

The head of a message arrives in pieces, so reading it off the front of the bytes that
have arrived has three outcomes: the part is there, more bytes are needed to tell, or no
bytes that may follow can mend it. A scan says which.

`HttpReplay.Http.Scan.bind` runs one scan after another; a part that is not there, or is
refused, ends the whole scan.
-/

namespace HttpReplay.Http

/-- Why a head is refused. -/
inductive Refusal
  /-- A method or target that is none. -/
  | token
  /-- A protocol other than HTTP/1.0 and HTTP/1.1. -/
  | version
  /-- A carriage return without its line feed. -/
  | newLine
  /-- A field line whose name is none. -/
  | headerName
  /-- A field line whose value holds a control character. -/
  | headerValue
  /-- A status code or reason that is none. -/
  | status
  /-- More field lines than there is room for. -/
  | tooManyHeaders
  deriving Repr, DecidableEq

/-- The wording of a refusal. -/
def Refusal.message : Refusal → String
  | .token => "invalid token"
  | .version => "invalid HTTP version"
  | .newLine => "invalid new line"
  | .headerName => "invalid header name"
  | .headerValue => "invalid header value"
  | .status => "invalid response status"
  | .tooManyHeaders => "too many headers"

/-- **The outcome of a scan.** -/
inductive Scan (α : Type)
  /-- The part, and the bytes after it. -/
  | done (value : α) (rest : Bytes)
  /-- The bytes end before the part does. -/
  | more
  /-- No part of this kind begins like the bytes. -/
  | refused (why : Refusal)
  deriving Repr, DecidableEq

namespace Scan

variable {α β : Type}

/-- Go on with what has been read. -/
def bind : Scan α → (α → Bytes → Scan β) → Scan β
  | .done a rest, f => f a rest
  | .more, _ => .more
  | .refused e, _ => .refused e

/-- Change what has been read. -/
def map (f : α → β) : Scan α → Scan β
  | .done a rest => .done (f a) rest
  | .more => .more
  | .refused e => .refused e

/-- Refuse what has been read unless it passes a test. -/
def ensure (p : α → Bool) (why : Refusal) : Scan α → Scan α
  | .done a rest => if p a then .done a rest else .refused why
  | .more => .more
  | .refused e => .refused e

/-! ### What a scan leaves -/

/-- The scan leaves at most so many bytes after its part. -/
def Leaves (n : Nat) (s : Scan α) : Prop := ∀ a rest, s = .done a rest → rest.length ≤ n

theorem leaves_done {n : Nat} {a : α} {rest : Bytes} (h : rest.length ≤ n) :
    (Scan.done a rest).Leaves n := by
  intro b r hd
  simp only [Scan.done.injEq] at hd
  exact hd.2 ▸ h

theorem leaves_more {n : Nat} : (Scan.more : Scan α).Leaves n := by
  intro b r hd
  simp at hd

theorem leaves_refused {n : Nat} {why : Refusal} : (Scan.refused why : Scan α).Leaves n := by
  intro b r hd
  simp at hd

theorem Leaves.mono {m n : Nat} {s : Scan α} (h : s.Leaves m) (hmn : m ≤ n) : s.Leaves n :=
  fun a rest hd => Nat.le_trans (h a rest hd) hmn

theorem Leaves.bind {m n : Nat} {s : Scan α} {f : α → Bytes → Scan β} (hs : s.Leaves m)
    (hf : ∀ a rest, rest.length ≤ m → (f a rest).Leaves n) : (s.bind f).Leaves n := by
  cases s with
  | done a rest => exact hf a rest (hs a rest rfl)
  | more => exact leaves_more
  | refused why => exact leaves_refused

theorem Leaves.map {n : Nat} {s : Scan α} (f : α → β) (hs : s.Leaves n) : (s.map f).Leaves n := by
  cases s with
  | done a rest => exact leaves_done (hs a rest rfl)
  | more => exact leaves_more
  | refused why => exact leaves_refused

theorem Leaves.ensure {n : Nat} {s : Scan α} (p : α → Bool) (why : Refusal) (hs : s.Leaves n) :
    (s.ensure p why).Leaves n := by
  cases s with
  | done a rest =>
    simp only [Scan.ensure]
    split
    · exact leaves_done (hs a rest rfl)
    · exact leaves_refused
  | more => exact leaves_more
  | refused why => exact leaves_refused

end Scan

open Scan

/-! ### Scans of single parts -/

/-- The bytes of a class up to the first `stop`, which is taken off too. -/
def upTo (stop : UInt8) (p : UInt8 → Bool) (why : Refusal) : Bytes → Scan Bytes
  | [] => .more
  | b :: rest =>
    if b = stop then .done [] rest
    else if p b then (upTo stop p why rest).map (b :: ·)
    else .refused why

theorem leaves_upTo (stop : UInt8) (p : UInt8 → Bool) (why : Refusal) (bytes : Bytes) :
    (upTo stop p why bytes).Leaves (bytes.length - 1) := by
  induction bytes with
  | nil => exact leaves_more
  | cons b rest ih =>
    simp only [upTo]
    split
    · exact leaves_done (by simp)
    · split
      · exact (ih.map _).mono (by simp only [List.length_cons]; omega)
      · exact leaves_refused

/-- The end of a line: a line feed, or a carriage return and a line feed. -/
def lineEnd (why : Refusal) : Bytes → Scan Unit
  | [] => .more
  | b :: rest =>
    if b = Byte.lf then .done () rest
    else if b = Byte.cr then
      match rest with
      | [] => .more
      | c :: rest => if c = Byte.lf then .done () rest else .refused why
    else .refused why

theorem leaves_lineEnd (why : Refusal) (bytes : Bytes) :
    (lineEnd why bytes).Leaves (bytes.length - 1) := by
  cases bytes with
  | nil => exact leaves_more
  | cons b rest =>
    simp only [lineEnd]
    split
    · exact leaves_done (by simp)
    · split
      · split
        · exact leaves_more
        · split
          · exact leaves_done (by simp only [List.length_cons]; omega)
          · exact leaves_refused
      · exact leaves_refused

/-- The bytes of a class up to the end of their line, which is taken off too. -/
def restOfLine (p : UInt8 → Bool) (why : Refusal) : Bytes → Scan Bytes
  | [] => .more
  | b :: rest =>
    if p b then (restOfLine p why rest).map (b :: ·)
    else (lineEnd why (b :: rest)).map fun _ => []

theorem leaves_restOfLine (p : UInt8 → Bool) (why : Refusal) (bytes : Bytes) :
    (restOfLine p why bytes).Leaves (bytes.length - 1) := by
  induction bytes with
  | nil => exact leaves_more
  | cons b rest ih =>
    simp only [restOfLine]
    split
    · exact (ih.map _).mono (by simp only [List.length_cons]; omega)
    · exact (leaves_lineEnd why (b :: rest)).map _

/-- The empty lines in front of a message. -/
def emptyLines : Bytes → Scan Unit
  | [] => .more
  | b :: rest =>
    if b = Byte.lf then emptyLines rest
    else if b = Byte.cr then
      match rest with
      | [] => .more
      | c :: rest => if c = Byte.lf then emptyLines rest else .refused .newLine
    else .done () (b :: rest)

theorem leaves_emptyLines (bytes : Bytes) : (emptyLines bytes).Leaves bytes.length := by
  fun_induction emptyLines bytes with
  | case1 => exact leaves_more
  | case2 rest ih => exact ih.mono (by simp)
  | case3 => exact leaves_more
  | case4 rest _ ih => exact ih.mono (by simp only [List.length_cons]; omega)
  | case5 => exact leaves_refused
  | case6 => exact leaves_done (Nat.le_refl _)

end HttpReplay.Http
