import HttpReplay.Bytes
import HttpReplay.Files.Fault

/-!
# Sinks

A sink is where bytes go that are written: the output of a session, or a file. It may have room for
a limited number of bytes only. Of what does not fit, it takes as much as there is room for, and the
writing fails. A sink may keep bytes back until it is flushed, and flushing it may fail too.

* `HttpReplay.Sink.write` writes bytes to a sink;
* `HttpReplay.Sink.flush` flushes it.
-/

namespace HttpReplay

/-- **A sink** for bytes. -/
structure Sink where
  /-- How many more bytes there is room for, if there is a limit. -/
  room : Option Nat := none
  /-- What happens when more is written. -/
  fault : IoFault := .other "writer is full"
  /-- What happens when it is flushed, if that fails. -/
  flushing : Option IoFault := none
  deriving Repr, DecidableEq

namespace Sink

/-- What a sink took, and the sink that is left or the failure. -/
abbrev Result (ε : Type) : Type := Bytes × Except ε Sink

/-- **Write bytes.** -/
def write (s : Sink) (bytes : Bytes) : Result IoFault :=
  match s.room with
  | none => (bytes, .ok s)
  | some room =>
    if bytes.length ≤ room then (bytes, .ok { s with room := some (room - bytes.length) })
    else (bytes.take room, .error s.fault)

/-- **Flush.** -/
def flush (s : Sink) : Except IoFault Sink :=
  match s.flushing with
  | none => .ok s
  | some fault => .error fault

variable {s : Sink} {room : Nat} {bytes : Bytes}

theorem write_of_unlimited (h : s.room = none) (bytes : Bytes) :
    s.write bytes = (bytes, .ok s) := by
  rw [write, h]

theorem write_of_le (hroom : s.room = some room) (h : bytes.length ≤ room) :
    s.write bytes = (bytes, .ok { s with room := some (room - bytes.length) }) := by
  rw [write, hroom]
  exact if_pos h

theorem write_of_lt (hroom : s.room = some room) (h : room < bytes.length) :
    s.write bytes = (bytes.take room, .error s.fault) := by
  rw [write, hroom]
  exact if_neg (Nat.not_le_of_lt h)

/-- What is taken are the first of the bytes. -/
theorem write_prefix (s : Sink) (bytes : Bytes) : (s.write bytes).1 <+: bytes := by
  unfold write
  split
  · exact List.prefix_rfl
  · split
    · exact List.prefix_rfl
    · exact List.take_prefix _ _

/-- All of them are taken if the writing does not fail. -/
theorem eq_of_write_eq_ok {taken : Bytes} {left : Sink} (h : s.write bytes = (taken, .ok left)) :
    taken = bytes := by
  unfold write at h
  split at h
  · exact (Prod.mk.inj h).1.symm
  · split at h
    · exact (Prod.mk.inj h).1.symm
    · cases h

/-- What happens when a sink is flushed plays no part in writing to it. -/
theorem write_flushing (s : Sink) (flushing : Option IoFault) (bytes : Bytes) :
    { s with flushing }.write bytes =
      ((s.write bytes).1, (s.write bytes).2.map fun left => { left with flushing }) := by
  obtain ⟨room, fault, _⟩ := s
  cases room with
  | none => rfl
  | some room =>
    simp only [write]
    split <;> rfl

end Sink

end HttpReplay
