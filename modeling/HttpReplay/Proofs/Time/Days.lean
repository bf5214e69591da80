import HttpReplay.Time.Calendar

/-!
# Dates and days

The date of a day exists, and counting the days to it gives the day back. A day is taken apart
into its cycle of 400 years, its century, its group of four years, its year and its day of the
year, which begins with March. The only question is when a year has a 366th day: the last year of
a group has, unless the group is the last of a century that is not the last of its cycle; and that
is the rule for leap days, of the year that begins two months earlier and holds its February.

* `HttpReplay.Calendar.exists_position` – a day taken apart;
* `HttpReplay.Calendar.dayNumber_dateOf` and `HttpReplay.Calendar.isValid_dateOf` – the theorems.
-/

namespace HttpReplay.Calendar

/-- **A day taken apart**: the years of its cycle, century and group before its own, and the days
of its year before it. -/
structure Position where
  cycle : Int
  century : Nat
  four : Nat
  one : Nat
  day : Nat

namespace Position

/-- The year that begins with March. -/
def year (p : Position) : Int := 400 * p.cycle + (100 * p.century + 4 * p.four + p.one : Nat)

/-- How many days are before it, counted from the first of March of the year zero. -/
def count (p : Position) : Int :=
  146097 * p.cycle + (36524 * p.century + 1461 * p.four + 365 * p.one + p.day : Nat)

/-- The parts are in range, and only a year that ends with a leap day has a 366th day. -/
structure IsValid (p : Position) : Prop where
  century_le : p.century ≤ 3
  four_le : p.four ≤ 24
  one_le : p.one ≤ 3
  day_le : p.day ≤ 365
  leap : p.day = 365 → p.one = 3 ∧ (p.four = 24 → p.century = 3)

variable {p : Position}

/-- The days before the year of a position. -/
theorem daysBeforeYear_year (h : p.IsValid) :
    daysBeforeYear p.year + p.day = p.count := by
  have h1 := h.century_le
  have h2 := h.four_le
  have h3 := h.one_le
  unfold daysBeforeYear year count
  omega

/-- A year with a 366th day ends with a leap day. -/
theorem isLeap_of_day (h : p.IsValid) (hday : p.day = 365) : isLeap (p.year + 1) = true := by
  obtain ⟨hone, hfour⟩ := h.leap hday
  have h1 := h.century_le
  have h2 := h.four_le
  unfold isLeap
  simp only [Bool.and_eq_true, Bool.or_eq_true, beq_iff_eq, bne_iff_ne, year]
  omega

end Position

/-- **Every day can be taken apart.** -/
theorem exists_position (day : Int) :
    ∃ p : Position, p.IsValid ∧ p.count = day + epoch ∧ dateOf day = dateInYear p.year p.day := by
  have hcycle := Int.mul_ediv_add_emod (day + epoch) 146097
  have hlt : (day + epoch) % 146097 < 146097 := Int.emod_lt_of_pos _ (by decide)
  obtain ⟨inCycle, hin⟩ := Int.eq_ofNat_of_zero_le (Int.emod_nonneg (day + epoch) (b := 146097)
    (by decide))
  obtain ⟨century, hcentury⟩ : ∃ n, n = min (inCycle / 36524) 3 := ⟨_, rfl⟩
  obtain ⟨inCentury, hinCentury⟩ : ∃ n, n = inCycle - century * 36524 := ⟨_, rfl⟩
  obtain ⟨four, hfour⟩ : ∃ n, n = inCentury / 1461 := ⟨_, rfl⟩
  obtain ⟨inFour, hinFour⟩ : ∃ n, n = inCentury % 1461 := ⟨_, rfl⟩
  obtain ⟨one, hone⟩ : ∃ n, n = min (inFour / 365) 3 := ⟨_, rfl⟩
  have hcenturyLe : century ≤ 3 := by omega
  have hinCenturyLe : inCentury ≤ 36523 ∨ inCentury ≤ 36524 ∧ century = 3 := by omega
  have hinFourLt : inFour < 1461 := by omega
  refine ⟨⟨(day + epoch) / 146097, century, four, one, inFour - one * 365⟩,
    ⟨hcenturyLe, ?_, ?_, ?_, ?_⟩, ?_, ?_⟩
  · show four ≤ 24
    omega
  · show one ≤ 3
    omega
  · show inFour - one * 365 ≤ 365
    omega
  · show inFour - one * 365 = 365 → one = 3 ∧ (four = 24 → century = 3)
    omega
  · have hcount : 36524 * century + 1461 * four + 365 * one + (inFour - one * 365) = inCycle := by
      omega
    rw [hin] at hcycle
    rw [Position.count, hcount]
    exact hcycle
  · rw [dateOf]
    simp only [hin, Int.toNat_natCast, ← hcentury, ← hinCentury, ← hfour, ← hinFour, ← hone]
    rfl

/-! ### Days of a year -/

section Year

variable (y : Int) {doy : Nat}

/-- The months of a year that begins with March. -/
theorem dateInYear_eq (h : doy ≤ 365) :
    ∃ m ≤ 11, daysBeforeMonth m ≤ doy ∧ doy < daysBeforeMonth (m + 1) ∧
      dateInYear y doy =
        if m < 10 then ⟨y, m + 3, doy - daysBeforeMonth m + 1⟩
        else ⟨y + 1, m - 9, doy - daysBeforeMonth m + 1⟩ := by
  refine ⟨(5 * doy + 2) / 153, by omega, ?_, ?_, rfl⟩
  · unfold daysBeforeMonth
    omega
  · unfold daysBeforeMonth
    omega

/-- **Counting the days** to the date of a day of a year. -/
theorem dayNumber_dateInYear (h : doy ≤ 365) :
    dayNumber (dateInYear y doy) = daysBeforeYear y + doy - epoch := by
  obtain ⟨m, hm, hle, -, heq⟩ := dateInYear_eq y h
  rw [heq]
  by_cases hlate : m < 10
  · rw [if_pos hlate]
    have hmonth : ¬ m + 3 ≤ 2 := by omega
    have hsum : daysBeforeMonth m + (doy - daysBeforeMonth m + 1) - 1 = doy := by omega
    simp only [dayNumber, hmonth, if_false, Nat.add_sub_cancel, hsum]
  · rw [if_neg hlate]
    have hmonth : m - 9 ≤ 2 := by omega
    have hback : m - 9 + 9 = m := by omega
    have hsum : daysBeforeMonth m + (doy - daysBeforeMonth m + 1) - 1 = doy := by omega
    simp only [dayNumber, hmonth, if_true, hback, hsum, Int.add_sub_cancel]

/-- The months from March to January are as long as the days before them and the next say. -/
theorem daysInMonth_eq (year : Int) :
    ∀ m < 11, daysInMonth year (if m < 10 then m + 3 else m - 9) =
      daysBeforeMonth (m + 1) - daysBeforeMonth m := by
  intro m hm
  obtain rfl | rfl | rfl | rfl | rfl | rfl | rfl | rfl | rfl | rfl | rfl : m = 0 ∨ m = 1 ∨ m = 2 ∨
      m = 3 ∨ m = 4 ∨ m = 5 ∨ m = 6 ∨ m = 7 ∨ m = 8 ∨ m = 9 ∨ m = 10 := by omega
  all_goals rfl

/-- **The date of a day of a year exists**, if only a leap year has a 366th day. -/
theorem isValid_dateInYear (h : doy ≤ 365) (hleap : doy = 365 → isLeap (y + 1) = true) :
    (dateInYear y doy).IsValid := by
  obtain ⟨m, hm, hle, hlt, heq⟩ := dateInYear_eq y h
  rw [heq]
  rcases Nat.lt_or_eq_of_le hm with hm | rfl
  · by_cases hlate : m < 10
    · have hdays := daysInMonth_eq y m hm
      rw [if_pos hlate] at hdays ⊢
      exact ⟨by simp, by simp; omega, by simp, by rw [hdays]; simp; omega⟩
    · have hdays := daysInMonth_eq (y + 1) m hm
      rw [if_neg hlate] at hdays ⊢
      exact ⟨by simp; omega, by simp; omega, by simp, by rw [hdays]; simp; omega⟩
  · -- February comes last, and its last day is the 366th of the year
    have hfirst : daysBeforeMonth 11 = 337 := rfl
    have hdays : daysInMonth (y + 1) 2 = if isLeap (y + 1) then 29 else 28 := rfl
    rw [if_neg (by omega), hfirst]
    refine ⟨Nat.le_of_ble_eq_true rfl, Nat.le_of_ble_eq_true rfl, Nat.le_add_left 1 _, ?_⟩
    show doy - 337 + 1 ≤ daysInMonth (y + 1) 2
    rw [hdays]
    by_cases hday : doy = 365
    · rw [if_pos (hleap hday)]
      omega
    · split <;> omega

end Year

/-! ### All days -/

/-- **Counting the days to the date of a day** gives the day. -/
theorem dayNumber_dateOf (day : Int) : dayNumber (dateOf day) = day := by
  obtain ⟨p, hvalid, hcount, hdate⟩ := exists_position day
  rw [hdate, dayNumber_dateInYear p.year hvalid.day_le, Position.daysBeforeYear_year hvalid,
    hcount, Int.add_sub_cancel]

/-- **The date of a day exists.** -/
theorem isValid_dateOf (day : Int) : (dateOf day).IsValid := by
  obtain ⟨p, hvalid, -, hdate⟩ := exists_position day
  rw [hdate]
  exact isValid_dateInYear p.year hvalid.day_le (Position.isLeap_of_day hvalid)

end HttpReplay.Calendar
