import Mathlib
import Lix.ExceptSpec

/-! LEB128 varints: seven bits a byte, lowest first, the high bit set on every byte but the
last. The reader starts at an offset and returns the value with the offset after it; it refuses
a varint that runs past the input and one whose bits would not fit in 64. The writer's output
reads back for every 64-bit value with anything after it, and whatever the reader accepts is a
64-bit value that took at least one byte. -/
namespace Lix.Varint
open ExceptSpec

/-- The writer: the low seven bits in a byte, marked when more bytes follow. -/
def writeVarint (value : ℕ) : List UInt8 :=
  let byte := UInt8.ofNat (value &&& 0x7f)
  if value >>> 7 = 0 then [byte] else (byte ||| 0x80) :: writeVarint (value >>> 7)
termination_by value
decreasing_by
  rename_i hmore
  simp only [Nat.shiftRight_eq_div_pow] at hmore ⊢
  omega

section Reader

variable {ε : Type} (truncated overflow : ε)

/-- The reader's loop at bit `shift`, with the bits read so far in `value`: the value and the
number of bytes read. A byte at bit 63 may only carry the last bit. -/
def readVarintLoop : List UInt8 → ℕ → ℕ → Except ε (ℕ × ℕ)
  | [], _, _ => .error truncated
  | byte :: rest, value, shift =>
    if 64 ≤ shift ∨ (shift = 63 ∧ 1 < byte) then .error overflow
    else
      let value := value ||| (byte &&& 0x7f).toNat <<< shift
      if byte &&& 0x80 = 0 then .ok (value, 1)
      else (readVarintLoop rest value (shift + 7)).map fun (value, read) => (value, read + 1)

/-- The reader at `offset`: the value and the offset just past it. -/
def readVarint (bytes : List UInt8) (offset : ℕ) : Except ε (ℕ × ℕ) :=
  (readVarintLoop truncated overflow (bytes.drop offset) 0 0).map fun (value, read) =>
    (value, offset + read)

end Reader

/-! ## The writer on numbers -/

theorem toNat_low_byte (value : ℕ) : (UInt8.ofNat (value &&& 0x7f)).toNat = value % 128 := by
  have hmask : (0x7f : ℕ) = 2 ^ 7 - 1 := rfl
  rw [hmask, Nat.and_two_pow_sub_one_eq_mod, UInt8.toNat_ofNat']
  omega

theorem toNat_or_continuation {byte : UInt8} (h : byte.toNat < 128) :
    (byte ||| 0x80).toNat = byte.toNat + 128 := by
  have hbit : (0x80 : UInt8).toNat = 2 ^ 7 := rfl
  rw [UInt8.toNat_or, hbit, Nat.or_two_pow_eq_add_of_lt h]

/-- One step of the writer, on numbers. -/
theorem writeVarint_eq (value : ℕ) :
    writeVarint value = if value < 128 then [UInt8.ofNat value]
      else UInt8.ofNat (value % 128 + 128) :: writeVarint (value / 128) := by
  rw [writeVarint]
  have hlow := toNat_low_byte value
  simp only [Nat.shiftRight_eq_div_pow]
  by_cases hsmall : value < 128
  · rw [if_pos (by omega), if_pos hsmall]
    congr 1
    apply UInt8.toNat_inj.mp
    rw [hlow, UInt8.toNat_ofNat']
    omega
  · rw [if_neg (by omega), if_neg hsmall]
    congr 1
    apply UInt8.toNat_inj.mp
    rw [toNat_or_continuation (by omega), hlow, UInt8.toNat_ofNat']
    omega

theorem writeVarint_ne_nil (value : ℕ) : writeVarint value ≠ [] := by
  rw [writeVarint_eq]
  split <;> simp

/-! ## The reader on what the writer wrote -/

section Reader

variable {ε : Type} {truncated overflow : ε}

/-- The low seven bits of a written byte. -/
theorem toNat_payload {byte : UInt8} {payload : ℕ} (hpayload : payload < 128)
    (hbyte : byte.toNat = payload ∨ byte.toNat = payload + 128) :
    (byte &&& 0x7f).toNat = payload := by
  have hmask : (0x7f : UInt8).toNat = 2 ^ 7 - 1 := rfl
  rw [UInt8.toNat_and, hmask, Nat.and_two_pow_sub_one_eq_mod]
  omega

/-- The continuation bit of a byte is its top bit. -/
theorem and_continuation_eq_zero_iff (byte : UInt8) : byte &&& 0x80 = 0 ↔ byte.toNat < 128 := by
  have hall : ∀ b : Fin 256, (b.val &&& 128 = 0 ↔ b.val < 128) := by decide +kernel
  have hbit : (0x80 : UInt8).toNat = 128 := rfl
  rw [← UInt8.toNat_inj, UInt8.toNat_and, hbit, UInt8.toNat_zero]
  exact hall ⟨byte.toNat, byte.toNat_lt⟩

/-- Adding the payload at bit `shift` to bits below it. -/
theorem or_shiftLeft_eq_add {acc shift : ℕ} (hacc : acc < 2 ^ shift) (payload : ℕ) :
    acc ||| payload <<< shift = acc + payload * 2 ^ shift := by
  rw [Nat.or_comm, ← Nat.shiftLeft_add_eq_or_of_lt hacc, Nat.shiftLeft_eq]
  omega

/-- The loop reads what the writer wrote of the bits from `shift` on, the bits below being in
`acc`. The written value must fit what is left of 64 bits. -/
theorem readVarintLoop_writeVarint (rest : List UInt8) :
    ∀ (value acc shift : ℕ), shift % 7 = 0 → shift ≤ 63 → acc < 2 ^ shift →
      value * 2 ^ shift < 2 ^ 64 →
      readVarintLoop truncated overflow (writeVarint value ++ rest) acc shift =
        .ok (acc + value * 2 ^ shift, (writeVarint value).length) := by
  intro value
  induction value using Nat.strong_induction_on with
  | _ value ih =>
    intro acc shift hstep hshift hacc hfits
    have hpow : 0 < 2 ^ shift := Nat.two_pow_pos shift
    rw [writeVarint_eq]
    by_cases hsmall : value < 128
    · -- the last byte
      have hbyte : (UInt8.ofNat value).toNat = value := by
        rw [UInt8.toNat_ofNat']
        omega
      have hlast : ¬(64 ≤ shift ∨ (shift = 63 ∧ 1 < UInt8.ofNat value)) := by
        rintro (h | ⟨rfl, h⟩)
        · omega
        · rw [UInt8.lt_iff_toNat_lt, hbyte] at h
          have htwo : 2 ≤ value := by simp at h; omega
          have : 2 * 2 ^ 63 ≤ value * 2 ^ 63 := Nat.mul_le_mul_right _ htwo
          omega
      rw [if_pos hsmall, List.singleton_append, readVarintLoop, if_neg hlast,
        toNat_payload hsmall (.inl hbyte), or_shiftLeft_eq_add hacc,
        if_pos ((and_continuation_eq_zero_iff _).mpr (by omega))]
      rfl
    · -- a byte with more to follow; at bit 63 the value could only be 0 or 1
      have hbyte : (UInt8.ofNat (value % 128 + 128)).toNat = value % 128 + 128 := by
        rw [UInt8.toNat_ofNat']
        omega
      have hlow : shift ≤ 56 := by
        by_contra hhigh
        have h63 : shift = 63 := by omega
        subst h63
        have : 128 * 2 ^ 63 ≤ value * 2 ^ 63 := Nat.mul_le_mul_right _ (by omega)
        omega
      have hmore : ¬(64 ≤ shift ∨ (shift = 63 ∧ 1 < UInt8.ofNat (value % 128 + 128))) := by
        omega
      have hnext : 2 ^ (shift + 7) = 2 ^ shift * 128 := by rw [Nat.pow_add]
      have hacc' : acc + value % 128 * 2 ^ shift < 2 ^ (shift + 7) := by
        have := Nat.mul_le_mul_right (2 ^ shift) (show value % 128 ≤ 127 by omega)
        rw [hnext]
        omega
      have hfits' : value / 128 * 2 ^ (shift + 7) < 2 ^ 64 := by
        have hle : value / 128 * 128 ≤ value := Nat.div_mul_le_self value 128
        calc value / 128 * 2 ^ (shift + 7) = value / 128 * 128 * 2 ^ shift := by
              rw [hnext]; ring
          _ ≤ value * 2 ^ shift := Nat.mul_le_mul_right _ hle
          _ < 2 ^ 64 := hfits
      have hcont : ¬(UInt8.ofNat (value % 128 + 128) &&& 0x80 = 0) := by
        rw [and_continuation_eq_zero_iff]
        omega
      rw [if_neg hsmall, List.cons_append, readVarintLoop, if_neg hmore,
        toNat_payload (Nat.mod_lt _ (by omega)) (.inr hbyte), or_shiftLeft_eq_add hacc,
        if_neg hcont, ih (value / 128) (by omega) _ _ (by omega) (by omega) hacc' hfits']
      simp only [Except.map, List.length_cons, Except.ok.injEq, Prod.mk.injEq, and_true]
      have hsplit : value = value / 128 * 128 + value % 128 := (Nat.div_add_mod' value 128).symm
      calc acc + value % 128 * 2 ^ shift + value / 128 * 2 ^ (shift + 7)
          = acc + (value / 128 * 128 + value % 128) * 2 ^ shift := by rw [hnext]; ring
        _ = acc + value * 2 ^ shift := by rw [← hsplit]

/-- A 64-bit value reads back from where the writer put it, and the reader stops right after
it. -/
theorem readVarint_writeVarint {bytes rest : List UInt8} {offset value : ℕ}
    (hvalue : value < 2 ^ 64) (hbytes : bytes.drop offset = writeVarint value ++ rest) :
    readVarint truncated overflow bytes offset = .ok (value, offset + (writeVarint value).length) := by
  rw [readVarint, hbytes,
    readVarintLoop_writeVarint rest value 0 0 rfl (by norm_num) (by norm_num) (by simpa using hvalue)]
  simp only [zero_add, pow_zero, mul_one]
  rfl

/-- The loop only accepts what fits in 64 bits, and reads at least one byte of its input. -/
theorem readVarintLoop_spec :
    ∀ {bytes : List UInt8} {acc shift value read : ℕ}, shift % 7 = 0 → acc < 2 ^ shift →
      readVarintLoop truncated overflow bytes acc shift = .ok (value, read) →
      value < 2 ^ 64 ∧ 0 < read ∧ read ≤ bytes.length
  | [], _, _, _, _, _, _, h => by cases h
  | byte :: rest, acc, shift, value, read, hstep, hacc, h => by
    rw [readVarintLoop] at h
    by_cases hbad : 64 ≤ shift ∨ (shift = 63 ∧ 1 < byte)
    · rw [if_pos hbad] at h
      cases h
    rw [if_neg hbad] at h
    have hpayload : (byte &&& 0x7f).toNat < 128 := by
      have hmask : (0x7f : UInt8).toNat = 2 ^ 7 - 1 := rfl
      rw [UInt8.toNat_and, hmask, Nat.and_two_pow_sub_one_eq_mod]
      omega
    by_cases hlast : byte &&& 0x80 = 0
    · -- the last byte: its payload lands below bit 64
      rw [if_pos hlast] at h
      simp only [Except.ok.injEq, Prod.mk.injEq] at h
      obtain ⟨rfl, rfl⟩ := h
      rw [or_shiftLeft_eq_add hacc]
      refine ⟨?_, Nat.one_pos, by simp⟩
      by_cases h63 : shift = 63
      · subst h63
        have hone : (byte &&& 0x7f).toNat ≤ 1 := by
          have hle : byte.toNat ≤ 1 := by
            have hsmall := (not_or.mp hbad).2
            simp only [not_and, true_implies] at hsmall
            rw [UInt8.lt_iff_toNat_lt] at hsmall
            simp at hsmall
            omega
          rw [UInt8.toNat_and]
          exact (Nat.and_le_left).trans hle
        have : (byte &&& 0x7f).toNat * 2 ^ 63 ≤ 1 * 2 ^ 63 := Nat.mul_le_mul_right _ hone
        omega
      · have hlow : shift + 7 ≤ 64 := by omega
        have hbelow : acc + (byte &&& 0x7f).toNat * 2 ^ shift < 2 ^ (shift + 7) := by
          have := Nat.mul_le_mul_right (2 ^ shift) (show (byte &&& 0x7f).toNat ≤ 127 by omega)
          rw [Nat.pow_add]
          omega
        exact hbelow.trans_le (Nat.pow_le_pow_right (by norm_num) hlow)
    · -- a byte with more to follow
      rw [if_neg hlast] at h
      obtain ⟨⟨value', read'⟩, hloop, h⟩ := map_eq_ok.mp h
      simp only [Prod.mk.injEq] at h
      obtain ⟨rfl, rfl⟩ := h
      have hacc' : (acc ||| (byte &&& 0x7f).toNat <<< shift) < 2 ^ (shift + 7) := by
        rw [or_shiftLeft_eq_add hacc]
        have := Nat.mul_le_mul_right (2 ^ shift) (show (byte &&& 0x7f).toNat ≤ 127 by omega)
        rw [Nat.pow_add]
        omega
      obtain ⟨hfits, -, hread⟩ := readVarintLoop_spec (by omega) hacc' hloop
      exact ⟨hfits, by omega, by simp; omega⟩

/-- Whatever the reader accepts is a 64-bit value, after which the offset has moved on by at
least one byte and stays within the input. -/
theorem readVarint_spec {bytes : List UInt8} {offset value offset' : ℕ}
    (h : readVarint truncated overflow bytes offset = .ok (value, offset')) :
    value < 2 ^ 64 ∧ offset < offset' ∧ offset' ≤ bytes.length := by
  obtain ⟨⟨value', read⟩, hloop, h⟩ := map_eq_ok.mp h
  simp only [Prod.mk.injEq] at h
  obtain ⟨rfl, rfl⟩ := h
  obtain ⟨hfits, hpos, hread⟩ := readVarintLoop_spec rfl (by norm_num) hloop
  rw [List.length_drop] at hread
  exact ⟨hfits, by omega, by omega⟩

end Reader

end Lix.Varint
