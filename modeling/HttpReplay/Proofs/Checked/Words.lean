import HttpReplay.Bytes
import HttpReplay.Text.Numeral

/-!
# Checked arithmetic, slices and loops

The readers of this library take lists apart, where nothing can go wrong. A program on a machine
goes over the same bytes with positions: it adds words of 64 bits, cuts slices out of buffers, and
goes round in loops. Each of these can fail. A sum may not fit in a word, a slice may lie outside
of its buffer, a loop may never end. This file states the three with their failures, so that a
reader can be written down as a machine runs it and proved equal to the one of the library, which
then says that none of them happens.

* `HttpReplay.Checked.Guarded` is a computation that may fail, `HttpReplay.Checked.Fault` says how;
* `HttpReplay.Checked.sum`, `HttpReplay.Checked.slice` and their like are the operations, each with
  a lemma that says when it does not fail;
* `HttpReplay.Checked.loop` is a loop with a limit on its rounds, and
  `HttpReplay.Checked.loop_eq_ok` is the rule by which it ends within them.
-/

namespace HttpReplay.Checked

/-- What can go wrong. -/
inductive Fault
  /-- A result is no word of 64 bits. -/
  | overflow
  /-- A slice or an element is outside of its list. -/
  | outOfRange
  /-- A loop does not end within its rounds. -/
  | endless
  deriving Repr, DecidableEq

/-- **A computation that may fail.** -/
abbrev Guarded (α : Type) := Except Fault α

variable {α β σ : Type}

@[simp] theorem ok_bind (a : α) (f : α → Guarded β) : (Except.ok a >>= f) = f a := rfl

@[simp] theorem pure_eq_ok (a : α) : (pure a : Guarded α) = .ok a := rfl

@[simp] theorem ok_map (a : α) (f : α → β) : f <$> (Except.ok a : Guarded α) = .ok (f a) := rfl

/-! ### Words -/

section Words

variable {a b : Nat}

/-- The sum of two words. -/
def sum (a b : Nat) : Guarded Nat :=
  if a + b < Numeral.wordLimit then .ok (a + b) else .error .overflow

/-- The sum of two words, or the greatest word where it does not fit. -/
def saturatingSum (a b : Nat) : Nat := min (a + b) (Numeral.wordLimit - 1)

/-- The difference of two words. -/
def difference (a b : Nat) : Guarded Nat := if b ≤ a then .ok (a - b) else .error .overflow

/-- The product of two words. -/
def product (a b : Nat) : Guarded Nat :=
  if a * b < Numeral.wordLimit then .ok (a * b) else .error .overflow

theorem sum_eq_ok (h : a + b < Numeral.wordLimit) : sum a b = .ok (a + b) := if_pos h

theorem difference_eq_ok (h : b ≤ a) : difference a b = .ok (a - b) := if_pos h

theorem product_eq_ok (h : a * b < Numeral.wordLimit) : product a b = .ok (a * b) := if_pos h

/-- The least length that no buffer has. -/
def bufferLimit : Nat := Numeral.capacity 63

theorem wordLimit_eq : Numeral.wordLimit = 2 * bufferLimit := by decide

/-- There is room for small numbers behind every position in a buffer. -/
theorem add_lt_wordLimit (ha : a < bufferLimit) (hb : b ≤ 2) : a + b < Numeral.wordLimit := by
  have : 2 < bufferLimit := by decide
  rw [wordLimit_eq]
  omega

end Words

/-! ### Slices -/

section Slices

variable {first last : Nat}

/-- The bytes between two positions. -/
def slice (bytes : Bytes) (first last : Nat) : Guarded Bytes :=
  if first ≤ last ∧ last ≤ bytes.length then .ok ((bytes.drop first).take (last - first))
  else .error .outOfRange

/-- The bytes from a position on. -/
def sliceFrom (bytes : Bytes) (first : Nat) : Guarded Bytes :=
  if first ≤ bytes.length then .ok (bytes.drop first) else .error .outOfRange

/-- The element at a position. -/
def element (list : List α) (position : Nat) : Guarded α :=
  match list[position]? with
  | some a => .ok a
  | none => .error .outOfRange

theorem slice_eq_ok {bytes : Bytes} (h : first ≤ last) (hl : last ≤ bytes.length) :
    slice bytes first last = .ok ((bytes.drop first).take (last - first)) :=
  if_pos ⟨h, hl⟩

theorem sliceFrom_eq_ok {bytes : Bytes} (h : first ≤ bytes.length) :
    sliceFrom bytes first = .ok (bytes.drop first) :=
  if_pos h

theorem element_eq_ok {list : List α} {position : Nat} {a : α} (h : list[position]? = some a) :
    element list position = .ok a := by
  rw [element, h]

end Slices

/-! ### Loops -/

/-- **A loop** makes rounds until one of them ends it with a result. -/
def loop (round : σ → Guarded (σ ⊕ α)) : Nat → σ → Guarded α
  | 0, _ => .error .endless
  | rounds + 1, s => do
    match ← round s with
    | .inl s => loop round rounds s
    | .inr a => return a

/-- One round of a loop that keeps an invariant and has a result to come to: it comes to it, or it
goes on with the same result and a smaller measure. -/
def Advances (round : σ → Guarded (σ ⊕ α)) (Inv : σ → Prop) (measure : σ → Nat) (result : σ → α)
    (s : σ) : Prop :=
  round s = .ok (.inr (result s)) ∨
    ∃ s', round s = .ok (.inl s') ∧ Inv s' ∧ measure s' < measure s ∧ result s' = result s

/-- **The rule for loops.** A loop whose every round advances comes to its result, in no more rounds
than the measure allows. -/
theorem loop_eq_ok {round : σ → Guarded (σ ⊕ α)} {Inv : σ → Prop} {measure : σ → Nat}
    {result : σ → α} (hround : ∀ s, Inv s → Advances round Inv measure result s) {rounds : Nat}
    {s : σ} (hs : Inv s) (hm : measure s < rounds) : loop round rounds s = .ok (result s) := by
  induction rounds generalizing s with
  | zero => exact absurd hm (Nat.not_lt_zero _)
  | succ rounds ih =>
    rcases hround s hs with hend | ⟨s', hgo, hs', hlt, hsame⟩
    · rw [loop, hend, ok_bind]
      rfl
    · rw [loop, hgo, ok_bind, ← hsame]
      exact ih hs' (by omega)

end HttpReplay.Checked
