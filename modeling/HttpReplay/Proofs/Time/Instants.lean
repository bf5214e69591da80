import HttpReplay.Proofs.Text.Numerals
import HttpReplay.Proofs.Time.Days
import HttpReplay.Time.Rfc3339
import Mathlib.Data.Nat.Digits.Defs

/-!
# Instants are read back

Every instant of the calendar is read back from its written form, years before zero and after
9999, fractions of every width and leap seconds included. Each part is read off the front, with
whatever follows kept; what follows a number begins with no digit, so that the reader, which
would take more digits than are written, stops where the writer did.

* `HttpReplay.Rfc3339.parts_render` – the parts are those that were written;
* `HttpReplay.Rfc3339.read_render` – **the instant is the one that was written**.
-/

namespace HttpReplay.Rfc3339

open Numeral (padded decimal)

variable {rest : List Char}

/-! ### Numbers -/

/-- No digit comes next. -/
def EndsDigits (cs : List Char) : Prop := ∀ c, cs.head? = some c → c.isDigit = false

theorem endsDigits_cons {c : Char} (h : c.isDigit = false) (cs : List Char) :
    EndsDigits (c :: cs) := by
  rintro d hd
  rwa [← Option.some.inj hd]

theorem takeDigits_append {digits : List Char} (h : ∀ c ∈ digits, c.isDigit = true) {most : Nat}
    (hle : digits.length ≤ most) (hend : digits.length = most ∨ EndsDigits rest) :
    takeDigits most (digits ++ rest) = (digits, rest) := by
  induction digits generalizing most with
  | nil =>
    cases most with
    | zero => rfl
    | succ n =>
      have hstop : EndsDigits rest := hend.resolve_left (by simp)
      cases rest with
      | nil => rfl
      | cons c cs => rw [List.nil_append, takeDigits, hstop c rfl, if_neg Bool.false_ne_true]
  | cons c digits ih =>
    cases most with
    | zero => simp at hle
    | succ n =>
      have hrec : takeDigits n (digits ++ rest) = (digits, rest) :=
        ih (fun d hd => h d (List.mem_cons_of_mem c hd)) (by simpa using hle) (by simpa using hend)
      rw [List.cons_append, takeDigits, if_pos (h c List.mem_cons_self), hrec]

theorem padded_ne_nil (width n : Nat) : padded width (decimal n) ≠ [] :=
  List.append_ne_nil_of_right_ne_nil _ Nat.toDigits_ne_nil

/-- **A number is read back**, if it fills its places or no digit follows. -/
theorem number_padded {width most n : Nat} (hn : n < Numeral.capacity 63)
    (hle : (padded width (decimal n)).length ≤ most)
    (hend : (padded width (decimal n)).length = most ∨ EndsDigits rest) :
    number most (padded width (decimal n) ++ rest) = .ok (n, rest) := by
  have hdigits : ∀ c ∈ padded width (decimal n), c.isDigit = true := fun c hc =>
    Numeral.isDigit_of_mem_padded hc
  have hvalue : valueOf (padded width (decimal n)) = n := Numeral.foldl_padded width n
  obtain ⟨c, cs, hcons⟩ := List.exists_cons_of_ne_nil (padded_ne_nil width n)
  have htake : takeDigits most (padded width (decimal n) ++ rest) =
      (padded width (decimal n), rest) := takeDigits_append hdigits hle hend
  rw [hcons] at hvalue htake ⊢
  rw [number, htake]
  simp only [hvalue, if_pos hn]

/-- Nothing is trimmed off in front of a number. -/
theorem trimFront_padded (width n : Nat) (rest : List Char) :
    Text.trimFront (padded width (decimal n) ++ rest) = padded width (decimal n) ++ rest := by
  obtain ⟨c, cs, hcons⟩ := List.exists_cons_of_ne_nil (padded_ne_nil width n)
  have hc : c.isDigit = true := Numeral.isDigit_of_mem_padded (hcons ▸ List.mem_cons_self)
  rw [hcons, List.cons_append, Text.trimFront, List.dropWhile_cons_of_neg]
  rw [Numeral.isSpace_of_isDigit hc]
  exact Bool.false_ne_true

/-! ### Parts -/

theorem length_two {n : Nat} (h : n < 100) : (two n).length = 2 :=
  Numeral.length_padded (Nat.toDigits_length 10 n 2 (by decide) h)

/-- **A field of two digits is read back.** -/
theorem field_two {least most n : Nat} (hl : least ≤ n) (hm : n ≤ most) (h : n < 100) :
    field least most (two n ++ rest) = .ok (n, rest) := by
  have hn : n < Numeral.capacity 63 := Nat.lt_of_lt_of_le h (by decide)
  have hlen := length_two h
  rw [field, two, trimFront_padded, number_padded hn (Nat.le_of_eq hlen) (.inl hlen)]
  simp [bind, Except.bind, pure, Except.pure, hl, hm]

theorem separator_cons {c : Char} (h : Text.isSpace c = false) (rest : List Char) :
    separator c (c :: rest) = .ok rest := by
  rw [separator, Text.trimFront, List.dropWhile_cons_of_neg (by simp [h])]
  simp

/-- The number of a year with its sign, whose range is still to be looked at. -/
def signedNumber (cs : List Char) : Except Error (Int × List Char) :=
  match cs with
  | '-' :: rest => do
    let (n, rest) ← number rest.length rest
    pure (-(n : Int), rest)
  | '+' :: rest => do
    let (n, rest) ← number rest.length rest
    pure ((n : Int), rest)
  | rest => do
    let (n, rest) ← number 4 rest
    pure ((n : Int), rest)

/-- A year that has been read must fit in 32 bits. -/
def checkedYear (y : Int) (rest : List Char) : Except Error (Int × List Char) :=
  if -(Numeral.capacity 31 : Int) ≤ y ∧ y < Numeral.capacity 31 then return (y, rest)
  else throw .outOfRange

/-- A year is a number with a sign and within its range. -/
theorem year_eq (cs : List Char) :
    year cs = signedNumber (Text.trimFront cs) >>= fun (y, rest) => checkedYear y rest := by
  unfold year signedNumber
  generalize Text.trimFront cs = ds
  split <;> simp only [bind_assoc, pure_bind, checkedYear]

theorem le_of_inRange {y : Int} (h : Calendar.inRange y) : -262143 ≤ y ∧ y ≤ 262142 := by
  have hrange : Calendar.firstYear ≤ y ∧ y ≤ Calendar.lastYear := by
    simpa [Calendar.inRange] using h
  exact hrange

/-- The years of the calendar are within the range. -/
theorem checkedYear_of_inRange {y : Int} (h : Calendar.inRange y) (rest : List Char) :
    checkedYear y rest = .ok (y, rest) := by
  have hrange := le_of_inRange h
  have hcapacity : Numeral.capacity 31 = 2147483648 := by decide
  rw [checkedYear, hcapacity, if_pos (by omega)]
  rfl

/-- Behind a sign a number may have any number of digits. -/
theorem number_signed {n : Nat} (hn : n < Numeral.capacity 63) (width : Nat)
    (hend : EndsDigits rest) :
    number (padded width (decimal n) ++ rest).length (padded width (decimal n) ++ rest) =
      .ok (n, rest) := by
  refine number_padded hn ?_ (.inr hend)
  rw [List.length_append]
  exact Nat.le_add_right _ _

/-- A number begins with no sign. -/
theorem padded_append_cases (width n : Nat) (rest : List Char) :
    ∃ c cs, padded width (decimal n) ++ rest = c :: cs ∧ c ≠ '-' ∧ c ≠ '+' := by
  obtain ⟨c, cs, hcons⟩ := List.exists_cons_of_ne_nil (padded_ne_nil width n)
  have hc : c.isDigit = true := Numeral.isDigit_of_mem_padded (hcons ▸ List.mem_cons_self)
  refine ⟨c, cs ++ rest, by rw [hcons, List.cons_append], ?_, ?_⟩
  · rintro rfl
    exact absurd hc (by decide)
  · rintro rfl
    exact absurd hc (by decide)

theorem signedNumber_renderYear {y : Int} (h : y.natAbs < Numeral.capacity 63)
    (hend : EndsDigits rest) :
    signedNumber (Text.trimFront (renderYear y ++ rest)) = .ok (y, rest) := by
  unfold renderYear
  by_cases hfour : 0 ≤ y ∧ y ≤ 9999
  · have hback : (y.toNat : Int) = y := Int.toNat_of_nonneg hfour.1
    have hsmall : y.toNat < Numeral.capacity 63 := Nat.lt_of_le_of_lt (by omega) h
    have hlen : (padded 4 (decimal y.toNat)).length = 4 :=
      Numeral.length_padded (Nat.toDigits_length 10 _ 4 (by decide) (by omega))
    have hread : number 4 (padded 4 (decimal y.toNat) ++ rest) = .ok (y.toNat, rest) :=
      number_padded hsmall (Nat.le_of_eq hlen) (.inl hlen)
    obtain ⟨c, cs, hcons, hminus, hplus⟩ := padded_append_cases 4 y.toNat rest
    rw [if_pos hfour, trimFront_padded]
    rw [hcons] at hread ⊢
    unfold signedNumber
    split
    · rename_i heq
      exact absurd (List.cons.inj heq).1 hminus
    · rename_i heq
      exact absurd (List.cons.inj heq).1 hplus
    · simp only [hread, bind, Except.bind, pure, Except.pure, hback]
  · have hread := number_signed h 4 hend
    rw [if_neg hfour]
    by_cases hneg : y < 0
    · have hback : -(y.natAbs : Int) = y := by omega
      rw [if_pos hneg, List.cons_append, Text.trimFront, List.dropWhile_cons_of_neg (by decide)]
      simp only [signedNumber, hread, bind, Except.bind, pure, Except.pure, hback]
    · have hback : (y.natAbs : Int) = y := by omega
      rw [if_neg hneg, List.cons_append, Text.trimFront, List.dropWhile_cons_of_neg (by decide)]
      simp only [signedNumber, hread, bind, Except.bind, pure, Except.pure, hback]

/-- **The year is read back.** -/
theorem year_renderYear {y : Int} (h : Calendar.inRange y) (hend : EndsDigits rest) :
    year (renderYear y ++ rest) = .ok (y, rest) := by
  have hrange := le_of_inRange h
  have hcapacity : Numeral.capacity 63 = 9223372036854775808 := by decide
  rw [year_eq, signedNumber_renderYear (by omega) hend]
  exact checkedYear_of_inRange h rest

/-- **A fraction is read back** in nanoseconds, in any number of places up to nine. -/
theorem fraction_padded {places value : Nat} (hplaces : 0 < places) (hle : places ≤ 9)
    (hvalue : value < 10 ^ places) :
    fraction ('.' :: padded places (decimal value) ++ ['Z']) =
      .ok (value * Nat.pow 10 (9 - places), ['Z']) := by
  have hlen : (padded places (decimal value)).length = places :=
    Numeral.length_padded (Nat.toDigits_length 10 value places hplaces hvalue)
  have hsmall : value < Numeral.capacity 63 :=
    Nat.lt_of_lt_of_le hvalue (Nat.le_trans (Nat.pow_le_pow_right (by decide) hle) (by decide))
  have hread : number 9 (padded places (decimal value) ++ ['Z']) = .ok (value, ['Z']) :=
    number_padded hsmall (by rwa [hlen]) (.inr (endsDigits_cons rfl []))
  have hcount : (padded places (decimal value) ++ ['Z']).length - ['Z'].length = places := by
    rw [List.length_append, hlen, Nat.add_sub_cancel]
  rw [List.cons_append, fraction, hread]
  simp only [bind, Except.bind, pure, Except.pure, hcount]
  rfl

/-- **The fraction is read back** as it is written. -/
theorem fraction_renderFraction {nanos : Nat} (h : nanos < 1000000000) :
    fraction (renderFraction nanos ++ ['Z']) = .ok (nanos, ['Z']) := by
  unfold renderFraction
  by_cases hzero : nanos = 0
  · rw [if_pos hzero, hzero]
    rfl
  rw [if_neg hzero]
  by_cases hmillis : nanos % 1000000 = 0
  · have hback : nanos / 1000000 * Nat.pow 10 (9 - 3) = nanos := by
      show nanos / 1000000 * 1000000 = nanos
      omega
    rw [if_pos hmillis, fraction_padded (by decide) (by decide) (by omega), hback]
  rw [if_neg hmillis]
  by_cases hmicros : nanos % 1000 = 0
  · have hback : nanos / 1000 * Nat.pow 10 (9 - 6) = nanos := by
      show nanos / 1000 * 1000 = nanos
      omega
    rw [if_pos hmicros, fraction_padded (by decide) (by decide) (by omega), hback]
  · rw [if_neg hmicros, fraction_padded (by decide) (by decide) (by omega)]
    exact congrArg (fun n => Except.ok (n, ['Z'])) (Nat.mul_one nanos)

/-! ### Instants -/

/-- What the written form of an instant says. -/
def localOf (t : Instant) : Local where
  date := t.date
  hour := t.secondOfDay / 3600
  minute := t.secondOfDay / 60 % 60
  second := t.secondOfDay % 60 + t.nanos / 1000000000
  nanos := t.nanos % 1000000000
  offset := 0

theorem secondOfDay_lt (t : Instant) : t.secondOfDay < 86400 := by
  unfold Instant.secondOfDay Instant.daySeconds
  omega

/-- A second is the 60th only if it is a leap second. -/
theorem nanos_cases {t : Instant} (h : t.IsValid) :
    t.nanos / 1000000000 = 0 ∧ t.nanos % 1000000000 = t.nanos ∨
      t.nanos / 1000000000 = 1 ∧ t.nanos = 1000000000 + t.nanos % 1000000000 ∧
        t.secondOfDay % 60 = 59 := by
  obtain ⟨-, hnanos | ⟨hnanos, hleap⟩⟩ := h
  · omega
  · omega

theorem daysInMonth_le (year : Int) (month : Nat) : Calendar.daysInMonth year month ≤ 31 := by
  unfold Calendar.daysInMonth
  split
  · split <;> omega
  · split <;> omega

theorem offset_utc : offset ['Z'] = .ok (0, []) := by decide

/-- **The parts are those that were written.** -/
theorem parts_render {t : Instant} (h : t.IsValid) : parts (render t) = .ok (localOf t) := by
  have hdate : t.date.IsValid := Calendar.isValid_dateOf _
  obtain ⟨hmonth, hmonth', hday, hday'⟩ := hdate
  have hdays := daysInMonth_le t.date.year t.date.month
  have hclock := secondOfDay_lt t
  have hleap := nanos_cases h
  have hfraction : t.nanos % 1000000000 < 1000000000 := Nat.mod_lt _ (by decide)
  have hyear : ∀ rest, year (renderYear t.date.year ++ '-' :: rest) =
      .ok (t.date.year, '-' :: rest) := fun rest =>
    year_renderYear h.1 (endsDigits_cons rfl rest)
  have hdash : ∀ rest, separator '-' ('-' :: rest) = .ok rest := separator_cons rfl
  have hcolon : ∀ rest, separator ':' (':' :: rest) = .ok rest := separator_cons rfl
  have hm : ∀ rest, field 1 12 (two t.date.month ++ rest) = .ok (t.date.month, rest) := fun _ =>
    field_two hmonth hmonth' (by omega)
  have hd : ∀ rest, field 1 31 (two t.date.day ++ rest) = .ok (t.date.day, rest) := fun _ =>
    field_two hday (Nat.le_trans hday' hdays) (by omega)
  have hhour : ∀ rest, field 0 23 (two (t.secondOfDay / 3600) ++ rest) =
      .ok (t.secondOfDay / 3600, rest) := fun _ =>
    field_two (Nat.zero_le _) (by omega) (by omega)
  have hminute : ∀ rest, field 0 59 (two (t.secondOfDay / 60 % 60) ++ rest) =
      .ok (t.secondOfDay / 60 % 60, rest) := fun _ =>
    field_two (Nat.zero_le _) (by omega) (by omega)
  have hsecond : ∀ rest,
      field 0 60 (two (t.secondOfDay % 60 + t.nanos / 1000000000) ++ rest) =
        .ok (t.secondOfDay % 60 + t.nanos / 1000000000, rest) := fun _ =>
    field_two (Nat.zero_le _) (by omega) (by omega)
  have htrim : Text.trimFront ['Z'] = ['Z'] := rfl
  simp only [render, parts, List.append_assoc, List.cons_append, hyear, hdash, hcolon, hm, hd,
    hhour, hminute, hsecond, fraction_renderFraction hfraction, htrim, offset_utc, bind,
    Except.bind, pure, Except.pure]
  rfl

/-- The second of the day is the one that the clock shows, without a leap second. -/
theorem clock_localOf {t : Instant} (h : t.IsValid) :
    (localOf t).hour * 3600 + (localOf t).minute * 60 + min (localOf t).second 59 =
        t.secondOfDay ∧
      (localOf t).nanos + ((localOf t).second - 59) * 1000000000 = t.nanos := by
  have hleap := nanos_cases h
  simp only [localOf]
  omega

/-- The day and its seconds make up the instant. -/
theorem seconds_eq (t : Instant) :
    Calendar.dayNumber t.date * 86400 + (t.secondOfDay : Int) - 0 = t.seconds := by
  have hrest : (t.secondOfDay : Int) = t.seconds % 86400 :=
    Int.toNat_of_nonneg (Int.emod_nonneg _ (by decide))
  have hday : Calendar.dayNumber t.date = t.seconds / 86400 := Calendar.dayNumber_dateOf _
  rw [hrest, hday]
  omega

theorem instantOf_localOf {t : Instant} (h : t.IsValid) : instantOf (localOf t) = .ok t := by
  have hdate : Calendar.inRange (localOf t).date.year ∧ (localOf t).date.IsValid :=
    ⟨h.1, Calendar.isValid_dateOf _⟩
  have hoffset : -86400 < (localOf t).offset ∧ (localOf t).offset < 86400 :=
    (by decide : (-86400 : Int) < 0 ∧ (0 : Int) < 86400)
  obtain ⟨hclock, hnanos⟩ := clock_localOf h
  have hback : (⟨Calendar.dayNumber (localOf t).date * 86400 + (t.secondOfDay : Nat) -
      (localOf t).offset, t.nanos⟩ : Instant) = t := by
    rw [show (localOf t).date = t.date from rfl, show (localOf t).offset = 0 from rfl, seconds_eq]
  rw [instantOf, if_neg (not_not_intro hdate), if_neg (not_not_intro hoffset)]
  simp only [hclock, hnanos, hback]
  exact if_pos h.1

/-- **An instant is read back.** -/
theorem read_render {t : Instant} (h : t.IsValid) : read (String.ofList (render t)) = .ok t := by
  rw [read, String.toList_ofList, parts_render h]
  exact instantOf_localOf h

end HttpReplay.Rfc3339
