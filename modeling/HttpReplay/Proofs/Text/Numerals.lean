import HttpReplay.Text.Numeral
import HttpReplay.Text.Space
import Mathlib.Data.List.Basic
import Mathlib.Data.List.Induction
import Mathlib.Data.Nat.Digits.Defs

/-!
# Numerals that are read back

A number that is written in a base up to sixteen is read back as it was, with zeros in front or
without, and its digits are plain: they are ASCII and no white space, so nothing is trimmed off
them, and none of them is a plus sign.

* `HttpReplay.Numeral.readOnto?_toDigits` and `HttpReplay.Numeral.read?_padded` read numerals;
* `HttpReplay.Numeral.readWord?_toDigits` reads a word, and `HttpReplay.Numeral.readWord?_eq_some`
  says what all words are (`HttpReplay.Numeral.IsWord`);
* `HttpReplay.Numeral.readWord?_decimal` says it of decimal words by the number that they stand for.
-/

namespace HttpReplay

namespace Numeral

variable {base : Nat}

/-! ### Digits -/

theorem digit?_digitChar : ∀ d < 16, digit? (Nat.digitChar d) = some d := by decide

theorem digitOf?_digitChar {d : Nat} (hbase : base ≤ 16) (hd : d < base) :
    digitOf? base (Nat.digitChar d) = some d := by
  rw [digitOf?, digit?_digitChar d (by omega), Option.filter_some, if_pos (by simpa using hd)]

theorem isSpace_digitChar : ∀ d < 16, Text.isSpace (Nat.digitChar d) = false := by decide

theorem digitChar_ne_plus : ∀ d < 16, Nat.digitChar d ≠ '+' := by decide

theorem toNat_digitChar_lt : ∀ d < 16, (Nat.digitChar d).toNat < 128 := by decide

/-- A numeral is made of digits of its base. -/
theorem exists_of_mem_toDigits (hbase : 1 < base) {n : Nat} {c : Char}
    (h : c ∈ Nat.toDigits base n) : ∃ d < base, c = Nat.digitChar d := by
  induction n using Nat.strongRecOn with
  | _ n ih =>
    rw [Nat.toDigits_eq_if hbase] at h
    split at h
    · rename_i hn
      exact ⟨n, hn, List.mem_singleton.mp h⟩
    · rcases List.mem_append.mp h with h | h
      · exact ih (n / base) (Nat.div_lt_self (by omega) hbase) h
      · exact ⟨n % base, Nat.mod_lt n (by omega), List.mem_singleton.mp h⟩

/-! ### Reading -/

theorem readOnto?_append (value : Nat) (front back : List Char) :
    readOnto? base value (front ++ back) =
      (readOnto? base value front).bind fun w => readOnto? base w back := by
  induction front generalizing value with
  | nil => rfl
  | cons c front ih =>
    rw [List.cons_append, readOnto?, readOnto?, Option.bind_assoc]
    exact Option.bind_congr fun d _ => ih _

/-- **A numeral is read back.** -/
theorem readOnto?_toDigits (hbase : 1 < base) (hle : base ≤ 16) (n : Nat) :
    readOnto? base 0 (Nat.toDigits base n) = some n := by
  induction n using Nat.strongRecOn with
  | _ n ih =>
    rw [Nat.toDigits_eq_if hbase]
    split
    · rename_i hn
      rw [readOnto?, digitOf?_digitChar hle hn, Option.bind_some, readOnto?, Nat.zero_mul,
        Nat.zero_add]
    · have hmod : n % base < base := Nat.mod_lt n (by omega)
      rw [readOnto?_append, ih (n / base) (Nat.div_lt_self (by omega) hbase), Option.bind_some,
        readOnto?, digitOf?_digitChar hle hmod, Option.bind_some, readOnto?,
        Nat.div_add_mod' n base]

/-- Zeros in front do not change a numeral. -/
theorem readOnto?_replicate (hbase : 1 < base) (hle : base ≤ 16) (n : Nat) (rest : List Char) :
    readOnto? base 0 (List.replicate n '0' ++ rest) = readOnto? base 0 rest := by
  induction n with
  | zero => rfl
  | succ n ih =>
    rw [List.replicate_succ, List.cons_append, readOnto?,
      show ('0' : Char) = Nat.digitChar 0 from rfl, digitOf?_digitChar hle (by omega),
      Option.bind_some, Nat.zero_mul, Nat.zero_add, show Nat.digitChar 0 = '0' from rfl, ih]

theorem readOnto?_padded (hbase : 1 < base) (hle : base ≤ 16) (width n : Nat) :
    readOnto? base 0 (padded width (Nat.toDigits base n)) = some n := by
  rw [padded, readOnto?_replicate hbase hle, readOnto?_toDigits hbase hle]

/-- **A numeral with zeros in front is read back.** -/
theorem read?_padded (hbase : 1 < base) (hle : base ≤ 16) (width n : Nat) :
    read? base (padded width (Nat.toDigits base n)) = some n := by
  rw [read?, if_neg (by simp [padded]), readOnto?_padded hbase hle]

theorem length_padded {width : Nat} {digits : List Char} (h : digits.length ≤ width) :
    (padded width digits).length = width := by
  rw [padded, List.length_append, List.length_replicate]
  omega

/-- A digit behind a numeral takes a place of its own. -/
theorem padded_concat (width : Nat) (ds : List Char) (d : Char) :
    padded (width + 1) (ds ++ [d]) = padded width ds ++ [d] := by
  rw [padded, padded, List.length_append, List.length_singleton, Nat.add_sub_add_right,
    List.append_assoc]

theorem read?_toDigits (hbase : 1 < base) (hle : base ≤ 16) (n : Nat) :
    read? base (Nat.toDigits base n) = some n := by
  rw [read?, if_neg Nat.toDigits_ne_nil, readOnto?_toDigits hbase hle]

theorem dropPlus_of_ne {cs : List Char} (h : cs.head? ≠ some '+') : dropPlus cs = cs := by
  unfold dropPlus
  split
  · exact absurd rfl h
  · rfl

/-- **A word is read back.** -/
theorem readWord?_toDigits (hbase : 1 < base) (hle : base ≤ 16) {n : Nat} (h : n < wordLimit) :
    readWord? base (Nat.toDigits base n) = some n := by
  have hplus : (Nat.toDigits base n).head? ≠ some '+' := by
    intro hh
    obtain ⟨d, hd, hc⟩ := exists_of_mem_toDigits hbase (List.mem_of_mem_head? hh)
    exact digitChar_ne_plus d (by omega) hc.symm
  rw [readWord?, dropPlus_of_ne hplus, read?_toDigits hbase hle, Option.filter_some,
    if_pos (by simpa using h)]

/-! ### Words -/

/-- **A word**: one or more digits of a base, with a plus sign in front or without, the value of
which fits in 64 bits. -/
def IsWord (base : Nat) (cs : List Char) (n : Nat) : Prop :=
  ∃ (digits : List Char) (values : List Nat), (cs = digits ∨ cs = '+' :: digits) ∧ digits ≠ [] ∧
    digits.map (digitOf? base) = values.map some ∧ n = Nat.ofDigits base values.reverse ∧
    n < wordLimit

/-- Digits are read one by one, the most significant one first. -/
theorem readOnto?_eq_some {value n : Nat} {cs : List Char} :
    readOnto? base value cs = some n ↔
      ∃ values : List Nat, cs.map (digitOf? base) = values.map some ∧
        n = values.foldl (fun v d => v * base + d) value := by
  induction cs generalizing value with
  | nil =>
    constructor
    · intro h
      cases h
      exact ⟨[], rfl, rfl⟩
    · rintro ⟨_ | ⟨d, values⟩, h, rfl⟩
      · rfl
      · cases h
  | cons c cs ih =>
    rw [readOnto?, Option.bind_eq_some_iff]
    constructor
    · rintro ⟨d, hd, h⟩
      obtain ⟨values, hv, rfl⟩ := ih.mp h
      exact ⟨d :: values, by rw [List.map_cons, hd, hv]; rfl, rfl⟩
    · rintro ⟨_ | ⟨d, values⟩, h, rfl⟩
      · cases h
      · rw [List.map_cons, List.map_cons, List.cons.injEq] at h
        exact ⟨d, h.1, ih.mpr ⟨values, h.2, rfl⟩⟩

/-- The value of some digits, the most significant one first. -/
theorem foldl_digits (values : List Nat) :
    values.foldl (fun v d => v * base + d) 0 = Nat.ofDigits base values.reverse := by
  rw [Nat.ofDigits_eq_foldr, List.foldr_reverse]
  congr 1
  funext v d
  rw [Nat.cast_id, Nat.add_comm, Nat.mul_comm]

theorem eq_dropPlus_or (cs : List Char) : cs = dropPlus cs ∨ cs = '+' :: dropPlus cs := by
  unfold dropPlus
  split
  · exact Or.inr rfl
  · exact Or.inl rfl

/-- A plus sign is no digit. -/
theorem dropPlus_of_digits {cs : List Char} {values : List Nat}
    (h : cs.map (digitOf? base) = values.map some) : dropPlus cs = cs := by
  refine dropPlus_of_ne ?_
  rintro hc
  obtain ⟨rest, rfl⟩ := List.head?_eq_some_iff.mp hc
  cases values with
  | nil => cases h
  | cons d values =>
    rw [List.map_cons, List.map_cons, List.cons.injEq] at h
    cases h.1

/-- **Words are what is read as such.** -/
theorem readWord?_eq_some {cs : List Char} {n : Nat} :
    readWord? base cs = some n ↔ IsWord base cs n := by
  rw [readWord?, Option.filter_eq_some_iff, decide_eq_true_eq]
  constructor
  · rintro ⟨h, hn⟩
    rw [read?] at h
    split at h
    · cases h
    · rename_i hne
      obtain ⟨values, hv, rfl⟩ := readOnto?_eq_some.mp h
      exact ⟨dropPlus cs, values, eq_dropPlus_or cs, hne, hv, foldl_digits values, hn⟩
  · rintro ⟨digits, values, hcs, hne, hv, rfl, hn⟩
    have hdigits : dropPlus cs = digits := by
      rcases hcs with rfl | rfl
      · exact dropPlus_of_digits hv
      · rfl
    refine ⟨?_, hn⟩
    rw [hdigits, read?, if_neg hne]
    exact readOnto?_eq_some.mpr ⟨values, hv, (foldl_digits values).symm⟩

/-! ### Decimal digits -/

theorem isDigit_digitChar : ∀ d < 10, (Nat.digitChar d).isDigit = true := by decide

theorem isDigit_of_mem_decimal {n : Nat} {c : Char} (h : c ∈ decimal n) : c.isDigit = true := by
  obtain ⟨d, hd, rfl⟩ := exists_of_mem_toDigits (by decide) h
  exact isDigit_digitChar d hd

theorem isDigit_of_mem_padded {width n : Nat} {c : Char} (h : c ∈ padded width (decimal n)) :
    c.isDigit = true := by
  rcases List.mem_append.mp h with h | h
  · rw [List.eq_of_mem_replicate h]
    rfl
  · exact isDigit_of_mem_decimal h

theorem isSpace_of_isDigit {c : Char} (h : c.isDigit = true) : Text.isSpace c = false := by
  have hlow : 48 ≤ c.toNat := (Char.isDigit_iff_toNat.mp h).1
  have hhigh : c.toNat ≤ 57 := (Char.isDigit_iff_toNat.mp h).2
  simp only [Text.isSpace, Bool.or_eq_false_iff, Bool.and_eq_false_imp, decide_eq_true_eq,
    beq_eq_false_iff_ne, decide_eq_false_iff_not]
  omega

theorem digitOf?_of_isDigit {c : Char} (h : c.isDigit = true) :
    digitOf? 10 c = some (c.toNat - 48) := by
  obtain ⟨hlow, hhigh⟩ := Char.isDigit_iff_toNat.mp h
  have hrange : '0' ≤ c ∧ c ≤ '9' := ⟨hlow, hhigh⟩
  rw [digitOf?, digit?, if_pos hrange, Option.filter_some, if_pos]
  simp only [decide_eq_true_eq]
  have : c.toNat ≤ 57 := hhigh
  omega

/-- A decimal digit behind a number. -/
def addDigit (n : Nat) (c : Char) : Nat := n * 10 + (c.toNat - 48)

/-- Decimal digits are read one by one. -/
theorem readOnto?_eq_foldl {digits : List Char} (h : ∀ c ∈ digits, c.isDigit = true)
    (value : Nat) : readOnto? 10 value digits = some (digits.foldl addDigit value) := by
  induction digits generalizing value with
  | nil => rfl
  | cons c digits ih =>
    rw [readOnto?, digitOf?_of_isDigit (h c List.mem_cons_self), Option.bind_some,
      ih fun d hd => h d (List.mem_cons_of_mem c hd), List.foldl_cons]
    rfl

/-- **The value of a decimal numeral**, digit by digit. -/
theorem foldl_padded (width n : Nat) : (padded width (decimal n)).foldl addDigit 0 = n := by
  have h : readOnto? 10 0 (padded width (decimal n)) = some n :=
    readOnto?_padded (by decide) (by decide) width n
  rw [readOnto?_eq_foldl fun c hc => isDigit_of_mem_padded hc] at h
  exact Option.some.inj h

theorem foldl_decimal (n : Nat) : (decimal n).foldl addDigit 0 = n := by
  have h := foldl_padded 0 n
  rwa [padded, Nat.zero_sub, List.replicate_zero, List.nil_append] at h

/-- Digits behind a number only make it larger. -/
theorem le_foldl_addDigit (digits : List Char) (n : Nat) : n ≤ digits.foldl addDigit n := by
  induction digits generalizing n with
  | nil => exact Nat.le_refl n
  | cons c digits ih =>
    have hstep : n ≤ addDigit n c := by
      unfold addDigit
      omega
    exact Nat.le_trans hstep (ih _)

/-- A number has no zero in front. -/
theorem head?_decimal_ne_zero {n : Nat} (h : n ≠ 0) : (decimal n).head? ≠ some '0' := by
  induction n using Nat.strongRecOn with
  | _ n ih =>
    rw [decimal, Nat.toDigits_eq_if (by decide)]
    split
    · rename_i hn
      have hdigit : ∀ d < 10, d ≠ 0 → Nat.digitChar d ≠ '0' := by decide
      simpa using hdigit n hn h
    · have hrec := ih (n / 10) (by omega) (by omega)
      rw [List.head?_append_of_ne_nil _ Nat.toDigits_ne_nil]
      exact hrec

/-! ### All decimal numerals -/

/-- A decimal digit is that of its value. -/
theorem eq_digitChar_of_digitOf? {c : Char} {d : Nat} (h : digitOf? 10 c = some d) :
    d < 10 ∧ c = Nat.digitChar d := by
  obtain ⟨hdigit, hlt⟩ := Option.filter_eq_some_iff.mp h
  have hd : d < 10 := of_decide_eq_true hlt
  refine ⟨hd, ?_⟩
  unfold digit? at hdigit
  split_ifs at hdigit with hten hlower hupper
  · have hlow : 48 ≤ c.toNat := hten.1
    have hhigh : c.toNat ≤ 57 := hten.2
    have hall : ∀ n ≤ 57, 48 ≤ n → Char.ofNat n = Nat.digitChar (n - 48) := by decide
    rw [← Option.some.inj hdigit, ← hall c.toNat hhigh hlow, Char.ofNat_toNat]
  · have hlow : 97 ≤ c.toNat := hlower.1
    have := Option.some.inj hdigit
    omega
  · have hlow : 65 ≤ c.toNat := hupper.1
    have := Option.some.inj hdigit
    omega

/-- A digit behind a number, of which zeros in front are no part. -/
theorem exists_zeros_append {n d zeros : Nat} (hd : d < 10) :
    ∃ more, List.replicate zeros '0' ++ decimal n ++ [Nat.digitChar d] =
      List.replicate more '0' ++ decimal (n * 10 + d) := by
  rcases Nat.eq_zero_or_pos n with rfl | hn
  · refine ⟨zeros + 1, ?_⟩
    rw [Nat.zero_mul, Nat.zero_add, decimal, decimal, Nat.toDigits_of_lt_base hd,
      List.replicate_succ']
    rfl
  · refine ⟨zeros, ?_⟩
    rw [List.append_assoc, decimal, decimal, ← Nat.toDigits_of_lt_base hd,
      Nat.toDigits_append_toDigits (by decide) hn hd, Nat.mul_comm]

/-- **What is read as a number** is the number, with any zeros in front. -/
theorem read?_eq_some {digits : List Char} {n : Nat} :
    read? 10 digits = some n ↔ ∃ zeros, digits = List.replicate zeros '0' ++ decimal n := by
  constructor
  · intro h
    induction digits using List.reverseRecOn generalizing n with
    | nil => cases h
    | append_singleton digits c ih =>
      rw [read?, if_neg (by simp), readOnto?_append] at h
      obtain ⟨m, hm, hlast⟩ := Option.bind_eq_some_iff.mp h
      obtain ⟨d, hc, hn⟩ := Option.bind_eq_some_iff.mp hlast
      obtain ⟨hd, rfl⟩ := eq_digitChar_of_digitOf? hc
      obtain rfl := Option.some.inj hn
      by_cases hnil : digits = []
      · subst hnil
        obtain rfl := Option.some.inj hm
        exact ⟨0, by simp [decimal, Nat.toDigits_of_lt_base hd]⟩
      · obtain ⟨zeros, rfl⟩ := ih ((if_neg hnil).trans hm)
        exact exists_zeros_append hd
  · rintro ⟨zeros, rfl⟩
    rw [read?, if_neg (by simp [decimal]), readOnto?_replicate (by decide) (by decide), decimal,
      readOnto?_toDigits (by decide) (by decide)]

/-- **What is read as a word** is a number that fits, with any zeros in front, and in front of those
a plus sign or none. -/
theorem readWord?_decimal {cs : List Char} {n : Nat} :
    readWord? 10 cs = some n ↔ n < wordLimit ∧ ∃ zeros,
      cs = List.replicate zeros '0' ++ decimal n ∨
        cs = '+' :: (List.replicate zeros '0' ++ decimal n) := by
  have hplus : ∀ zeros, dropPlus (List.replicate zeros '0' ++ decimal n) =
      List.replicate zeros '0' ++ decimal n := by
    intro zeros
    refine dropPlus_of_ne fun hhead => ?_
    have hdigit : ('+').isDigit = true := by
      rcases List.mem_append.mp (List.mem_of_head? hhead) with h | h
      · rw [List.eq_of_mem_replicate h]
        rfl
      · exact isDigit_of_mem_decimal h
    exact absurd hdigit (by decide)
  rw [readWord?, Option.filter_eq_some_iff, decide_eq_true_eq, read?_eq_some, and_comm]
  refine and_congr_right fun _ => ⟨?_, ?_⟩
  · rintro ⟨zeros, h⟩
    exact ⟨zeros, h ▸ eq_dropPlus_or cs⟩
  · rintro ⟨zeros, rfl | rfl⟩
    · exact ⟨zeros, hplus zeros⟩
    · exact ⟨zeros, rfl⟩

end Numeral

/-! ### Trimming -/

namespace Text

theorem dropWhile_isSpace_of_forall {cs : List Char} (h : ∀ c ∈ cs, isSpace c = false) :
    cs.dropWhile isSpace = cs := by
  cases cs with
  | nil => rfl
  | cons c cs => exact List.dropWhile_cons_of_neg (by simp [h c List.mem_cons_self])

/-- Nothing is trimmed off a text without white space. -/
theorem trim_of_forall {cs : List Char} (h : ∀ c ∈ cs, isSpace c = false) : trim cs = cs := by
  have hback : ∀ c ∈ cs.reverse, isSpace c = false := fun c hc => h c (List.mem_reverse.mp hc)
  rw [trim, trimFront, dropWhile_isSpace_of_forall h, trimBack, dropWhile_isSpace_of_forall hback,
    List.reverse_reverse]

theorem trim_toDigits {base : Nat} (hbase : 1 < base) (hle : base ≤ 16) (n : Nat) :
    trim (Nat.toDigits base n) = Nat.toDigits base n := by
  refine trim_of_forall fun c hc => ?_
  obtain ⟨d, hd, rfl⟩ := Numeral.exists_of_mem_toDigits hbase hc
  exact Numeral.isSpace_digitChar d (by omega)

end Text

end HttpReplay
