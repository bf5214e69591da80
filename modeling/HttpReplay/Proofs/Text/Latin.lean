import HttpReplay.Bytes
import Mathlib.Data.List.Basic

/-!
# Bytes of ASCII as text

Where all bytes are below 128 the two ways of taking bytes for text agree: as UTF-8 they stand for
the same characters as when every byte stands for the character of its number. What a well-behaved
sender puts into a request target or into the fields that frame a body is of this kind.

* `HttpReplay.Bytes.text?_ofText` says that the UTF-8 form of a text is read as that text;
* `HttpReplay.Bytes.text?_of_forall` is the agreement, and `HttpReplay.Bytes.text?_ascii` what it
  says of a text that is written byte by byte.
-/

namespace HttpReplay.Bytes

/-- The UTF-8 form of a text is read as that text. -/
theorem text?_ofText (value : String) : text? (ofText value) = some value := by
  have h : (⟨(ofText value).toArray⟩ : ByteArray) = value.toByteArray := rfl
  rw [text?, h, String.fromUTF8?, dif_pos value.isValidUTF8]
  rfl

theorem ofText_ofList (cs : List Char) :
    ofText (String.ofList cs) = cs.flatMap String.utf8EncodeChar := by
  rw [ofText, String.toByteArray_ofList, List.utf8Encode]
  simp

/-- Only the line feed is written with the byte of a line feed. -/
theorem lf_notMem_utf8EncodeChar {c : Char} (h : c ≠ '\n') : Byte.lf ∉ String.utf8EncodeChar c := by
  have hsmall : ∀ n : Nat, n % 256 ≠ 10 → Byte.lf ≠ UInt8.ofNat n := by
    intro n hn heq
    exact hn ((UInt8.toNat_ofNat' (n := n)).symm.trans (congrArg UInt8.toNat heq.symm))
  have hne : c.val.toNat ≠ 10 := fun heq => h (Char.ext (UInt32.toNat_inj.mp heq))
  unfold String.utf8EncodeChar
  simp only
  split_ifs with hone htwo hthree <;>
    simp only [List.mem_cons, List.not_mem_nil, or_false, not_or]
  · exact hsmall _ (by omega)
  · exact ⟨hsmall _ (by omega), hsmall _ (by omega)⟩
  · exact ⟨hsmall _ (by omega), hsmall _ (by omega), hsmall _ (by omega)⟩
  · exact ⟨hsmall _ (by omega), hsmall _ (by omega), hsmall _ (by omega), hsmall _ (by omega)⟩

/-- **A text without line feeds** is written without their byte. -/
theorem lf_notMem_ofText {cs : List Char} (h : '\n' ∉ cs) :
    Byte.lf ∉ ofText (String.ofList cs) := by
  rw [ofText_ofList]
  intro hmem
  obtain ⟨c, hc, hbyte⟩ := List.mem_flatMap.mp hmem
  refine lf_notMem_utf8EncodeChar (fun heq => h ?_) hbyte
  rwa [← heq]

theorem utf8EncodeChar_of_lt {c : Char} (h : c.toNat < 128) :
    String.utf8EncodeChar c = [c.toNat.toUInt8] := by
  rw [String.utf8EncodeChar_eq_singleton]
  · rfl
  · rw [Char.utf8Size_eq_one_iff]
    exact Nat.le_of_lt_succ h

/-- The UTF-8 form of an ASCII text has a byte for every character. -/
theorem ofText_of_forall {cs : List Char} (h : ∀ c ∈ cs, c.toNat < 128) :
    ofText (String.ofList cs) = ascii (String.ofList cs) := by
  rw [ofText_ofList, ascii, String.toList_ofList]
  induction cs with
  | nil => rfl
  | cons c cs ih =>
    obtain ⟨hc, hcs⟩ := List.forall_mem_cons.mp h
    rw [List.flatMap_cons, utf8EncodeChar_of_lt hc, ih hcs]
    rfl

theorem toNat_ofNat_of_byte (b : UInt8) : (Char.ofNat b.toNat).toNat = b.toNat := by
  have hb : b.toNat < 256 := b.toNat_lt
  rw [Char.ofNat, dif_pos (Or.inl (by omega))]
  rfl

/-- Taking bytes for characters and characters for bytes again changes nothing. -/
theorem ascii_latin1 (bytes : Bytes) : ascii (latin1 bytes) = bytes := by
  rw [ascii, latin1, String.toList_ofList, List.map_map]
  refine List.map_id'' (fun b => ?_) bytes
  rw [Function.comp_apply, toNat_ofNat_of_byte]
  simp

theorem latin1_ascii {cs : List Char} (h : ∀ c ∈ cs, c.toNat < 128) :
    latin1 (ascii (String.ofList cs)) = String.ofList cs := by
  rw [ascii, latin1, String.toList_ofList, List.map_map]
  refine congrArg String.ofList ?_
  refine (List.map_congr_left fun c hc => ?_).trans (List.map_id cs)
  have hlt : c.toNat < 256 := Nat.lt_trans (h c hc) (by decide)
  rw [Function.comp_apply, Nat.toUInt8_eq, UInt8.toNat_ofNat', Nat.mod_eq_of_lt hlt]
  exact Char.ofNat_toNat c

/-- **ASCII is read the same both ways.** -/
theorem text?_of_forall {bytes : Bytes} (h : ∀ b ∈ bytes, b < 128) :
    text? bytes = some (latin1 bytes) := by
  have hcs : ∀ c ∈ bytes.map (fun b => Char.ofNat b.toNat), c.toNat < 128 := by
    intro c hc
    obtain ⟨b, hb, rfl⟩ := List.mem_map.mp hc
    rw [toNat_ofNat_of_byte]
    exact UInt8.lt_iff_toNat_lt.mp (h b hb)
  have hof : ofText (latin1 bytes) = bytes := by
    rw [latin1, ofText_of_forall hcs]
    exact ascii_latin1 bytes
  rw [← text?_ofText, hof]

theorem ascii_lt {cs : List Char} (h : ∀ c ∈ cs, c.toNat < 128) :
    ∀ b ∈ ascii (String.ofList cs), b < 128 := by
  intro b hb
  rw [ascii, String.toList_ofList] at hb
  obtain ⟨c, hc, rfl⟩ := List.mem_map.mp hb
  have hlt : c.toNat < 256 := Nat.lt_trans (h c hc) (by decide)
  rw [UInt8.lt_iff_toNat_lt, Nat.toUInt8_eq, UInt8.toNat_ofNat', Nat.mod_eq_of_lt hlt]
  exact h c hc

/-- **An ASCII text** that is written byte by byte is read as that text. -/
theorem text?_ascii {cs : List Char} (h : ∀ c ∈ cs, c.toNat < 128) :
    text? (ascii (String.ofList cs)) = some (String.ofList cs) := by
  rw [text?_of_forall (ascii_lt h), latin1_ascii h]

end HttpReplay.Bytes
