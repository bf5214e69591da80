import HttpReplay.Json.Number
import HttpReplay.Json.Text

/-!
# Values that are not needed

A record may have members that nobody asks for. Their values are read to their end, and
must be JSON, but nothing is made of them.

Lists and objects nest to any depth, so the reader keeps the brackets that are open in a
list of its own, the innermost first, and goes through the text once.
`HttpReplay.Json.skipValue` drops one value.
-/

namespace HttpReplay.Json

/-- A bracket that is open. -/
inductive Bracket
  | list
  | object
  deriving Repr, DecidableEq

/-- What may come next. -/
inductive Stage
  /-- A value. -/
  | value
  /-- What follows an opening bracket: its closing one, or a first element. -/
  | opened
  /-- What follows an element: a comma, or the closing bracket. -/
  | element
  deriving Repr, DecidableEq

/-- The fault of a text that ends in a bracket. -/
def Bracket.endCause : Bracket → Cause
  | .list => .endInList
  | .object => .endInObject

/-- The fault of an element that is followed by something else. -/
def Bracket.closeCause : Bracket → Cause
  | .list => .listEndExpected
  | .object => .objectEndExpected

/-- The character that closes a bracket. -/
def Bracket.close : Bracket → Char
  | .list => ']'
  | .object => '}'

/-- Drop a value that is no list and no object, at its first character. -/
def skipScalar (cs : List Char) : Except Fault (List Char) :=
  match cs with
  | [] => past .endInValue []
  | c :: rest =>
    if c = 'n' then word "ull".toList rest
    else if c = 't' then word "rue".toList rest
    else if c = 'f' then word "alse".toList rest
    else if c = '-' then skipNumber rest
    else if c.isDigit then skipNumber cs
    else if c = '\x22' then skipText rest
    else past .valueExpected cs

/-- Drop the name of a member and the colon behind it. -/
def skipName (cs : List Char) : Except Fault (List Char) :=
  match skipBlanks cs with
  | [] => past .endInObject []
  | c :: rest =>
    if c ≠ '\x22' then past .nameExpected (c :: rest)
    else
      match skipText rest with
      | .error e => .error e
      | .ok rest =>
        match skipBlanks rest with
        | [] => past .endInObject []
        | c :: rest => if c = ':' then .ok rest else past .colonExpected (c :: rest)

/-- Drop what stands before the value of an element: the name, in an object. -/
def Bracket.skipLead (b : Bracket) (cs : List Char) : Except Fault (List Char) :=
  match b with
  | .list => .ok cs
  | .object => skipName cs

/-! ### Nothing grows -/

theorem length_skipBlanks (cs : List Char) : (skipBlanks cs).length ≤ cs.length :=
  (List.dropWhile_suffix _).length_le

theorem length_le_of_word {w cs rest : List Char} (h : word w cs = .ok rest) :
    rest.length ≤ cs.length := by
  induction w generalizing cs with
  | nil =>
    simp only [word, Except.ok.injEq] at h
    simp [h]
  | cons e es ih =>
    cases cs with
    | nil => simp [word, here] at h
    | cons c cs =>
      simp only [word] at h
      split at h
      · exact Nat.le_succ_of_le (ih h)
      · simp [past] at h

theorem length_skipDigits (cs : List Char) : (skipDigits cs).2.length ≤ cs.length :=
  (List.dropWhile_suffix _).length_le

theorem length_exponentSign (cs : List Char) : (exponentSign cs).2.length ≤ cs.length := by
  unfold exponentSign
  split <;> simp

theorem length_le_of_skipExponent {cs rest : List Char} (h : skipExponent cs = .ok rest) :
    rest.length ≤ cs.length := by
  unfold skipExponent at h
  have h1 := length_exponentSign cs
  have h2 := length_skipDigits (exponentSign cs).2
  dsimp only at h
  split at h
  · simp only [Except.ok.injEq] at h
    rw [← h]
    omega
  · simp [past] at h

theorem length_le_of_skipFraction {cs rest : List Char} (h : skipFraction cs = .ok rest) :
    rest.length ≤ cs.length := by
  unfold skipFraction at h
  have h1 := length_skipDigits cs
  split at h
  · dsimp only at h
    split at h
    · have h2 := length_le_of_skipExponent h
      rw [List.length_drop] at h2
      omega
    · simp only [Except.ok.injEq] at h
      rw [← h]
      omega
  · simp [past] at h

theorem length_wholeRest (cs : List Char) : (wholeRest cs).length ≤ cs.length := by
  unfold wholeRest
  split
  · simp
  · exact length_skipDigits cs

theorem length_le_of_skipTail {cs rest : List Char} (h : skipTail cs = .ok rest) :
    rest.length ≤ cs.length := by
  unfold skipTail at h
  split at h
  · simp [past] at h
  split at h
  · have h2 := length_le_of_skipFraction h
    rw [List.length_drop] at h2
    omega
  split at h
  · have h2 := length_le_of_skipExponent h
    rw [List.length_drop] at h2
    omega
  · simp only [Except.ok.injEq] at h
    simp [h]

theorem length_le_of_skipNumber {cs rest : List Char} (h : skipNumber cs = .ok rest) :
    rest.length ≤ cs.length := by
  unfold skipNumber at h
  split at h
  · exact Nat.le_trans (length_le_of_skipTail h) (length_wholeRest cs)
  · simp [past] at h

theorem length_lt_of_skipText {cs rest : List Char} (h : skipText cs = .ok rest) :
    rest.length < cs.length := by
  fun_induction skipText cs with
  | case1 => simp [here] at h
  | case2 tail =>
    simp only [Except.ok.injEq] at h
    simp [h]
  | case3 => simp at h
  | case4 tail after he _ ih =>
    have := length_lt_of_skipEscape he
    have := ih h
    simp only [List.length_cons]
    omega
  | case5 => simp [here] at h
  | case6 c tail _ _ _ ih =>
    have := ih h
    simp only [List.length_cons]
    omega

theorem length_le_of_skipScalar {cs rest : List Char} (h : skipScalar cs = .ok rest) :
    rest.length ≤ cs.length := by
  unfold skipScalar at h
  split at h
  · simp [past] at h
  · split at h
    · exact Nat.le_succ_of_le (length_le_of_word h)
    split at h
    · exact Nat.le_succ_of_le (length_le_of_word h)
    split at h
    · exact Nat.le_succ_of_le (length_le_of_word h)
    split at h
    · exact Nat.le_succ_of_le (length_le_of_skipNumber h)
    split at h
    · exact length_le_of_skipNumber h
    split at h
    · exact Nat.le_succ_of_le (Nat.le_of_lt (length_lt_of_skipText h))
    · simp [past] at h

theorem length_le_of_skipLead {b : Bracket} {cs rest : List Char} (h : b.skipLead cs = .ok rest) :
    rest.length ≤ cs.length := by
  cases b with
  | list =>
    simp only [Bracket.skipLead, Except.ok.injEq] at h
    simp [h]
  | object =>
    simp only [Bracket.skipLead, skipName] at h
    have h1 := length_skipBlanks cs
    split at h
    · simp [past] at h
    · rename_i c tail hc
      rw [hc, List.length_cons] at h1
      split at h
      · simp [past] at h
      · split at h
        · simp at h
        · rename_i after ht
          have h2 := length_lt_of_skipText ht
          have h3 := length_skipBlanks after
          split at h
          · simp [past] at h
          · rename_i c' last hl
            rw [hl, List.length_cons] at h3
            split at h
            · simp only [Except.ok.injEq] at h
              rw [← h]
              omega
            · simp [past] at h

/-! ### Values -/

/-- The bracket that a character opens. -/
def Bracket.ofOpening? (c : Char) : Option Bracket :=
  if c = '[' then some .list else if c = '{' then some .object else none

/-- The stages in the order in which they follow on one another without a character read. -/
def Stage.rank : Stage → Nat
  | .element => 0
  | .value => 1
  | .opened => 2

/-- Go on at a stage, within the brackets that are open. -/
def skipFrom (brackets : List Bracket) (stage : Stage) (cs : List Char) :
    Except Fault (List Char) :=
  match stage, brackets with
  | .value, _ =>
    match _hc : skipBlanks cs with
    | [] => past .endInValue []
    | c :: rest =>
      match Bracket.ofOpening? c with
      | some b => skipFrom (b :: brackets) .opened rest
      | none =>
        match _hs : skipScalar (c :: rest) with
        | .error e => .error e
        | .ok rest => skipFrom brackets .element rest
  | _, [] => .ok cs
  | stage, b :: outer =>
    match _hc : skipBlanks cs with
    | [] => past b.endCause []
    | c :: rest =>
      if c = b.close then skipFrom outer .element rest
      else if _ho : stage = .opened then
        match _hl : b.skipLead (c :: rest) with
        | .error e => .error e
        | .ok rest => skipFrom (b :: outer) .value rest
      else if c = ',' then
        match _hl : b.skipLead rest with
        | .error e => .error e
        | .ok rest => skipFrom (b :: outer) .value rest
      else past b.closeCause (c :: rest)
termination_by (cs.length, stage.rank)
decreasing_by
  all_goals
    have h1 := length_skipBlanks cs
    rw [_hc, List.length_cons] at h1
  · exact .left _ _ (by omega)
  · have h2 := length_le_of_skipScalar _hs
    rw [List.length_cons] at h2
    rcases Nat.lt_or_eq_of_le (Nat.le_trans h2 h1) with h | h
    · exact .left _ _ h
    · rw [h]
      exact .right _ (by decide)
  · exact .left _ _ (by omega)
  · have h2 := length_le_of_skipLead _hl
    rw [List.length_cons] at h2
    rw [_ho]
    rcases Nat.lt_or_eq_of_le (Nat.le_trans h2 h1) with h | h
    · exact .left _ _ h
    · rw [h]
      exact .right _ (by decide)
  · have h2 := length_le_of_skipLead _hl
    exact .left _ _ (by omega)

/-- **Drop one value.** -/
def skipValue (cs : List Char) : Except Fault (List Char) := skipFrom [] .value cs

end HttpReplay.Json
