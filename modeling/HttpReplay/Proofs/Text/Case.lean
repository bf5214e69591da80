import HttpReplay.Text.Case
import HttpReplay.Text.Space
import Mathlib.Data.List.Basic

/-!
# Lower-case forms in ASCII

Characters outside ASCII have lower-case forms as well, but hardly any of them is in ASCII: the
Kelvin sign becomes a `k`, and the capital i with a dot an `i` with a dot above it. Where neither
letter occurs, a text of ASCII is the lower-case form of those texts only that differ from it in
the case of letters of ASCII (`HttpReplay.Text.lowercase_eq_iff`).
-/

namespace HttpReplay.Text

/-- No row of capitals outside ASCII has lower-case forms in ASCII, but for the Kelvin sign. -/
theorem capitals_outside : ∀ row ∈ capitals,
    row.2.1 < 128 ∨ 128 ≤ row.2.2.2 ∨ row.2.1 = row.1 ∧ row.2.2.2 = 'k'.toNat := by
  decide +kernel

theorem lowercaseNumber_of_ge {n : Nat} (h : 128 ≤ n) :
    128 ≤ lowercaseNumber n ∨ lowercaseNumber n = 'k'.toNat := by
  rw [lowercaseNumber]
  split
  · rename_i first last step small hrow
    have hmem := List.mem_of_find?_eq_some hrow
    have hin := List.find?_some hrow
    simp only [Bool.and_eq_true, decide_eq_true_eq] at hin
    obtain ⟨⟨hfirst, hlast⟩, -⟩ := hin
    rcases capitals_outside _ hmem with hlt | hge | ⟨hone, hk⟩
    · have hlt : last < 128 := hlt
      omega
    · exact Or.inl (Nat.le_trans hge (Nat.le_add_right _ _))
    · have hone : last = first := hone
      have hk : small = 'k'.toNat := hk
      rw [hk]
      omega
  · exact Or.inl h

/-- **Characters that are no lower-case form** of anything outside ASCII: those of ASCII but for the
two letters above. Zero is left out too, as it stands for what is no character. -/
def IsPlain (c : Char) : Prop := c.toNat < 128 ∧ c ≠ 'i' ∧ c ≠ 'k' ∧ c.toNat ≠ 0

/-- The character with a number has that number, or is zero where the number is none of a
character. -/
theorem toNat_ofNat_or (n : Nat) : (Char.ofNat n).toNat = n ∨ (Char.ofNat n).toNat = 0 := by
  by_cases h : n.isValidChar
  · rw [Char.ofNat, dif_pos h]
    exact Or.inl rfl
  · rw [Char.ofNat, dif_neg h]
    exact Or.inr rfl

theorem lowercaseOf_of_lt {c : Char} (h : c.toNat < 128) : lowercaseOf c = [lower c] := by
  have hall : ∀ n < 128, lowercaseOf (Char.ofNat n) = [lower (Char.ofNat n)] := by
    decide +kernel
  have := hall c.toNat h
  rwa [Char.ofNat_toNat] at this

/-- The lower-case form of a character outside ASCII begins with no plain letter. -/
theorem exists_lowercaseOf_of_ge {c : Char} (h : 128 ≤ c.toNat) :
    ∃ first rest, lowercaseOf c = first :: rest ∧ ¬ IsPlain first := by
  rw [lowercaseOf]
  split
  · exact ⟨'i', _, rfl, fun hi => hi.2.1 rfl⟩
  · refine ⟨_, [], rfl, ?_⟩
    rintro ⟨hlt, -, hk, h0⟩
    rcases lowercaseNumber_of_ge h with hge | heq
    · have := (toNat_ofNat_or (lowercaseNumber c.toNat)).resolve_right h0
      omega
    · exact hk (by rw [heq]; rfl)

/-- **A plain text is the lower-case form** of the texts that differ from it in the case of letters
of ASCII. -/
theorem lowercase_eq_iff {cs plain : List Char} (h : ∀ c ∈ plain, IsPlain c) :
    lowercase cs = plain ↔ cs.map lower = plain := by
  induction cs generalizing plain with
  | nil => rfl
  | cons c cs ih =>
    rw [lowercase, List.flatMap_cons, List.map_cons]
    by_cases hc : c.toNat < 128
    · rw [lowercaseOf_of_lt hc, List.singleton_append]
      cases plain with
      | nil => simp
      | cons d plain =>
        rw [List.cons.injEq, List.cons.injEq]
        exact and_congr_right fun _ => ih fun e he => h e (List.mem_cons_of_mem d he)
    · -- The character is outside ASCII, and so is none of a plain text in either form.
      obtain ⟨first, rest, hlower, hfirst⟩ := exists_lowercaseOf_of_ge (Nat.not_lt.mp hc)
      have hcapital : ¬ ('A' ≤ c ∧ c ≤ 'Z') := fun hz => hc (Nat.lt_of_le_of_lt hz.2 (by decide))
      rw [hlower, lower, if_neg hcapital]
      constructor
      · rintro rfl
        exact absurd (h first (by simp)) hfirst
      · rintro rfl
        exact absurd (h c List.mem_cons_self).1 hc

end HttpReplay.Text
