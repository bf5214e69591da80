import HttpReplay.Http.Head

/-!
# Folded field lines

The value of a field may be broken over several lines: where it has a single space between two
words, the line ends, and the next one begins with blanks and goes on with the value. This file says
what the foldings of a head are. Any number of spaces may be replaced, each in a way of its own.

* `HttpReplay.Http.FoldsText` folds a value, `HttpReplay.Http.FoldsLines` all field lines;
* `HttpReplay.Http.Folds` folds a head. Its first line stays as it is.
-/

namespace HttpReplay.Http

/-- The end of a line: a line feed, or a carriage return and a line feed. -/
def IsLineEnd (ending : Bytes) : Prop := ending = [Byte.lf] ∨ ending = [Byte.cr, Byte.lf]

/-- **What a space is replaced by**: the end of a line, and blanks at the beginning of the next. -/
def IsFold (fold : Bytes) : Prop :=
  ∃ ending blanks, IsLineEnd ending ∧ blanks ≠ [] ∧ (∀ b ∈ blanks, Byte.isBlank b) ∧
    fold = ending ++ blanks

/-- **The foldings of a text.** -/
inductive FoldsText : Bytes → Bytes → Prop
  /-- Nothing is left. -/
  | nil : FoldsText [] []
  /-- A byte that stays. -/
  | keep {b : UInt8} {text folded : Bytes} :
      FoldsText text folded → FoldsText (b :: text) (b :: folded)
  /-- A single space between two bytes that are no blanks. -/
  | fold {a b : UInt8} {fold text folded : Bytes} :
      Byte.isBlank a = false → Byte.isBlank b = false → IsFold fold →
      FoldsText (b :: text) folded → FoldsText (a :: Byte.sp :: b :: text) (a :: (fold ++ folded))

/-- **The foldings of the field lines** up to the empty line that ends the head. -/
inductive FoldsLines : Bytes → Bytes → Prop
  /-- The empty line. -/
  | empty {ending : Bytes} : IsLineEnd ending → FoldsLines ending ending
  /-- The line of a field: its name, a colon, and what the value is taken from. -/
  | line {name text folded ending lines lines' : Bytes} :
      name ≠ [] → (∀ b ∈ name, isToken b) → (∀ b ∈ text, isFieldText b) →
      FoldsText text folded → IsLineEnd ending → FoldsLines lines lines' →
      FoldsLines (name ++ Byte.colon :: (text ++ (ending ++ lines)))
        (name ++ Byte.colon :: (folded ++ (ending ++ lines')))

/-- **The foldings of a head.** -/
def Folds (head folded : Bytes) : Prop :=
  ∃ first lines lines', Byte.lf ∉ first ∧ FoldsLines lines lines' ∧
    head = first ++ Byte.lf :: lines ∧ folded = first ++ Byte.lf :: lines'

end HttpReplay.Http
