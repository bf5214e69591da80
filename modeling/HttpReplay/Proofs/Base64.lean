import HttpReplay.Base64
import HttpReplay.Proofs.Text.Latin

/-!
# Base64 is read back

Reading the written form of some bytes gives these bytes. The characters of a group are taken
apart into their six bits each, which is settled for all values of six bits at once; the groups
are then put together one behind the other.

`HttpReplay.Base64.decode_encode` is the theorem.
-/

namespace HttpReplay.Base64

/-! ### The alphabet -/

/-- The byte of a character of the alphabet. -/
def symbolByte (n : Nat) : UInt8 := (symbol n).toNat.toUInt8

theorem symbol_lt : ∀ n < 64, (symbol n).toNat < 128 := by decide

theorem value?_symbolByte : ∀ n < 64, value? (symbolByte n) = some n := by decide

theorem symbolByte_ne_pad : ∀ n < 64, symbolByte n ≠ pad := by decide

theorem valueAt_symbolByte {n : Nat} (h : n < 64) (offset : Nat) :
    valueAt offset (symbolByte n) = .ok n := by
  rw [valueAt, value?_symbolByte n h]

/-! ### Groups

The four characters of a group are named in order: the first is the high six bits of the first
byte, the fourth the low six bits of the third. -/

section Group

variable (a b c : UInt8)

theorem first_lt : a.toNat / 4 < 64 := by
  have := a.toNat_lt
  omega

theorem second_lt : a.toNat % 4 * 16 + b.toNat / 16 < 64 := by
  have := b.toNat_lt
  omega

theorem third_lt : b.toNat % 16 * 4 + c.toNat / 64 < 64 := by
  have := c.toNat_lt
  omega

theorem fourth_lt : c.toNat % 64 < 64 := Nat.mod_lt _ (by decide)

theorem toUInt8_of_eq {n : Nat} (h : n % 256 = a.toNat) : n.toUInt8 = a := by
  apply UInt8.toNat_inj.mp
  rw [← h]
  rfl

/-- **The bits of a group** make up its bytes. -/
theorem threeBytes_group :
    threeBytes (a.toNat / 4) (a.toNat % 4 * 16 + b.toNat / 16) (b.toNat % 16 * 4 + c.toNat / 64)
      (c.toNat % 64) = [a, b, c] := by
  have ha := a.toNat_lt
  have hb := b.toNat_lt
  have hc := c.toNat_lt
  rw [threeBytes, toUInt8_of_eq a (by omega), toUInt8_of_eq b (by omega),
    toUInt8_of_eq c (by omega)]

end Group

/-- The bytes of the written form, which is a text of ASCII. -/
def encodeBytes : Bytes → Bytes
  | [] => []
  | [a] => [symbolByte (a.toNat / 4), symbolByte (a.toNat % 4 * 16), pad, pad]
  | [a, b] =>
    [symbolByte (a.toNat / 4), symbolByte (a.toNat % 4 * 16 + b.toNat / 16),
      symbolByte (b.toNat % 16 * 4), pad]
  | a :: b :: c :: rest =>
    symbolByte (a.toNat / 4) :: symbolByte (a.toNat % 4 * 16 + b.toNat / 16) ::
      symbolByte (b.toNat % 16 * 4 + c.toNat / 64) :: symbolByte (c.toNat % 64) ::
        encodeBytes rest

theorem lt_of_mem_encode {bytes : Bytes} {c : Char} (h : c ∈ encode bytes) : c.toNat < 128 := by
  fun_induction encode bytes with
  | case1 => simp at h
  | case2 a =>
    have ha := first_lt a
    simp only [List.mem_cons, List.not_mem_nil, or_false] at h
    rcases h with rfl | rfl | rfl | rfl
    · exact symbol_lt _ ha
    · exact symbol_lt _ (by omega)
    · decide
    · decide
  | case3 a b =>
    simp only [List.mem_cons, List.not_mem_nil, or_false] at h
    rcases h with rfl | rfl | rfl | rfl
    · exact symbol_lt _ (first_lt a)
    · exact symbol_lt _ (second_lt a b)
    · exact symbol_lt _ (by omega)
    · decide
  | case4 a b c rest ih =>
    simp only [List.mem_cons] at h
    rcases h with rfl | rfl | rfl | rfl | h
    · exact symbol_lt _ (first_lt a)
    · exact symbol_lt _ (second_lt a b)
    · exact symbol_lt _ (third_lt b c)
    · exact symbol_lt _ (fourth_lt c)
    · exact ih h

theorem ofText_encode (bytes : Bytes) :
    Bytes.ofText (String.ofList (encode bytes)) = encodeBytes bytes := by
  rw [Bytes.ofText_of_forall fun c hc => lt_of_mem_encode hc, Bytes.ascii, String.toList_ofList]
  fun_induction encode bytes with
  | case1 => rfl
  | case2 a => rfl
  | case3 a b => rfl
  | case4 a b c rest ih =>
    rw [encodeBytes, ← ih]
    rfl

theorem length_encodeBytes (bytes : Bytes) : (encodeBytes bytes).length % 4 = 0 := by
  fun_induction encodeBytes bytes with
  | case1 => rfl
  | case2 a => simp
  | case3 a b => simp
  | case4 a b c rest ih =>
    simp only [List.length_cons]
    omega

/-! ### Reading -/

/-- A character of the alphabet in the last group. -/
theorem decodeLast_symbolByte {n : Nat} (h : n < 64) (offset : Nat) (values : List Nat)
    (last : UInt8) (rest : Bytes) :
    decodeLast offset values last (symbolByte n :: rest) =
      decodeLast offset (values ++ [n]) (symbolByte n) rest := by
  rw [decodeLast, if_neg (symbolByte_ne_pad n h), value?_symbolByte n h]

/-- Pad characters fill up the last group. -/
theorem decodeLast_pads (offset : Nat) {values : List Nat} (h : 2 ≤ values.length) (last : UInt8)
    (more : Nat) :
    decodeLast offset values last (pad :: List.replicate more pad) =
      closeGroup offset values last (more + 1) := by
  have hall : (List.replicate more pad).all (· == pad) := by simp
  rw [decodeLast, if_pos rfl, if_pos ⟨h, hall⟩, List.length_replicate]

/-- A last group of one byte. -/
theorem decodeFrom_one (a : UInt8) (offset : Nat) :
    decodeFrom offset (encodeBytes [a]) = .ok [a] := by
  have ha := a.toNat_lt
  have hbits : a.toNat % 4 * 16 % 16 = 0 := Nat.mul_mod_left _ _
  have hgroup := threeBytes_group a 0 0
  simp only [UInt8.toNat_zero, Nat.zero_div, Nat.add_zero, Nat.zero_mod, Nat.zero_mul] at hgroup
  rw [encodeBytes, decodeFrom, decodeLast_symbolByte (first_lt a),
    decodeLast_symbolByte (by omega), List.nil_append, List.singleton_append,
    show [pad, pad] = pad :: List.replicate 1 pad from rfl, decodeLast_pads _ (by simp),
    closeGroup, if_neg (by simp), if_neg (by simp [hbits]), hgroup]
  · rfl
  · simp

/-- A last group of two bytes. -/
theorem decodeFrom_two (a b : UInt8) (offset : Nat) :
    decodeFrom offset (encodeBytes [a, b]) = .ok [a, b] := by
  have hb := b.toNat_lt
  have hbits : b.toNat % 16 * 4 % 4 = 0 := Nat.mul_mod_left _ _
  have hgroup := threeBytes_group a b 0
  simp only [UInt8.toNat_zero, Nat.zero_div, Nat.add_zero, Nat.zero_mod] at hgroup
  rw [encodeBytes, decodeFrom, decodeLast_symbolByte (first_lt a),
    decodeLast_symbolByte (second_lt a b), decodeLast_symbolByte (by omega), List.nil_append,
    List.singleton_append, List.cons_append, List.singleton_append,
    show [pad] = pad :: List.replicate 0 pad from rfl, decodeLast_pads _ (by simp), closeGroup,
    if_neg (by simp), if_neg (by simp [hbits]), hgroup]
  · rfl
  · simp

/-- A group of three bytes, which is the last one. -/
theorem decodeFrom_three (a b c : UInt8) (offset : Nat) :
    decodeFrom offset (encodeBytes [a, b, c]) = .ok [a, b, c] := by
  rw [encodeBytes, encodeBytes, decodeFrom, decodeLast_symbolByte (first_lt a),
    decodeLast_symbolByte (second_lt a b), decodeLast_symbolByte (third_lt b c),
    decodeLast_symbolByte (fourth_lt c), List.nil_append, List.singleton_append, List.cons_append,
    List.singleton_append, List.cons_append, List.cons_append, List.singleton_append, decodeLast,
    closeGroup, threeBytes_group]
  simp

/-- A group of three bytes before others. -/
theorem decodeFrom_group (a b c : UInt8) {rest : Bytes} (h : rest ≠ []) (offset : Nat) :
    decodeFrom offset (encodeBytes (a :: b :: c :: rest)) =
      (decodeFrom (offset + 4) (encodeBytes rest)).map fun more => a :: b :: c :: more := by
  obtain ⟨e, more, hmore⟩ : ∃ e more, encodeBytes rest = e :: more := by
    fun_cases encodeBytes rest with
    | case1 => exact absurd rfl h
    | case2 => exact ⟨_, _, rfl⟩
    | case3 => exact ⟨_, _, rfl⟩
    | case4 => exact ⟨_, _, rfl⟩
  have hgroup : decodeGroup offset (symbolByte (a.toNat / 4))
      (symbolByte (a.toNat % 4 * 16 + b.toNat / 16))
      (symbolByte (b.toNat % 16 * 4 + c.toNat / 64)) (symbolByte (c.toNat % 64)) =
        .ok [a, b, c] := by
    simp only [decodeGroup, valueAt_symbolByte (first_lt a), valueAt_symbolByte (second_lt a b),
      valueAt_symbolByte (third_lt b c), valueAt_symbolByte (fourth_lt c), bind, Except.bind,
      threeBytes_group]
    rfl
  rw [encodeBytes, hmore, decodeFrom, hgroup, ← hmore]
  cases decodeFrom (offset + 4) (encodeBytes rest) <;> rfl

/-- **Groups are read back**, from every offset on. -/
theorem decodeFrom_encodeBytes {bytes : Bytes} (h : bytes ≠ []) (offset : Nat) :
    decodeFrom offset (encodeBytes bytes) = .ok bytes := by
  induction bytes using encodeBytes.induct generalizing offset with
  | case1 => exact absurd rfl h
  | case2 a => exact decodeFrom_one a offset
  | case3 a b => exact decodeFrom_two a b offset
  | case4 a b c rest ih =>
    by_cases hrest : rest = []
    · subst hrest
      exact decodeFrom_three a b c offset
    · rw [decodeFrom_group a b c hrest, ih hrest]
      rfl

/-- **Base64 is read back.** -/
theorem decode_encode (bytes : Bytes) :
    decode (Bytes.ofText (String.ofList (encode bytes))) = .ok bytes := by
  rw [ofText_encode]
  have hstray : strayLast? (encodeBytes bytes) = none := by
    rw [strayLast?, if_neg (by rw [length_encodeBytes]; decide)]
  by_cases h : bytes = []
  · subst h
    rfl
  · have hfrom := decodeFrom_encodeBytes h 0
    unfold decode
    split
    · rename_i heq
      rw [heq] at hfrom
      simp [decodeFrom, decodeLast, closeGroup] at hfrom
    · rename_i hsome _
      rw [hstray] at hsome
      cases hsome
    · exact hfrom

end HttpReplay.Base64
