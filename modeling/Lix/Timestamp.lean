import Mathlib.Data.Int.Init

/-! `common/timestamp.rs`: `LixTimestamp`, one `u64` that packs the milliseconds since the Unix
epoch into its high 52 bits and the timezone offset in minutes, as 12-bit two's complement, into
its low 12. The constructors check the offset range and that Jiff takes the count, so every
timestamp carries both checks as its field `valid`.

Jiff is not part of the repository. Its `Timestamp::from_millisecond` is the parameter
`fromMillisecond`, of which the crate uses whether it succeeds and the text of its error, which
the messages append. `AcceptsJiffRange` says that it takes the counts that are not negative up
to 9999-12-30T22:00:00Z, as Jiff's does; the results that depend on that range assume it. -/
namespace Lix.Timestamp

def millisBits : ℕ := 52
def offsetBits : ℕ := 12
def offsetMask : UInt64 := ((1 : UInt64) <<< 12) - 1
def maxPackedMillis : UInt64 := ((1 : UInt64) <<< 52) - 1
def minOffsetMinutes : Int16 := -(23 * 60 + 59)
def maxOffsetMinutes : Int16 := 23 * 60 + 59

/-- The last whole millisecond Jiff's `Timestamp::from_millisecond` takes, 9999-12-30T22:00:00Z. -/
def jiffMaxMillisecond : ℕ := 253402207200000

/-- Whether a count is at most `jiffMaxMillisecond`. -/
def jiffDisplayable (millis : UInt64) : Bool := millis.toNat ≤ jiffMaxMillisecond

/-- `decode_offset_minutes`: the low 12 bits, sign-extended by shifting them to the top of an
`i16` and back (`i16::BITS - OFFSET_BITS` is 4). -/
def decodeOffsetMinutes (packed : UInt64) : Int16 :=
  let raw := (packed &&& offsetMask).toUInt16.toInt16
  (raw <<< 4) >>> 4

/-- `valid_offset_minutes`. -/
def validOffsetMinutes (offsetMinutes : Int16) : Bool :=
  minOffsetMinutes ≤ offsetMinutes && offsetMinutes ≤ maxOffsetMinutes

section Jiff

variable (fromMillisecond : Int64 → Except String Unit)

/-- What `from_packed` checks of a packed value: its offset, and that Jiff takes its count. -/
def IsValidPacked (packed : UInt64) : Prop :=
  validOffsetMinutes (decodeOffsetMinutes packed) = true ∧
    (fromMillisecond (packed >>> 12).toInt64).isOk = true

instance (packed : UInt64) : Decidable (IsValidPacked fromMillisecond packed) :=
  inferInstanceAs (Decidable (_ ∧ _))

/-- `from_millisecond` takes the counts that are not negative exactly up to `jiffMaxMillisecond`. -/
def AcceptsJiffRange : Prop :=
  ∀ millis : Int64, 0 ≤ millis →
    ((fromMillisecond millis).isOk = true ↔ millis.toInt ≤ jiffMaxMillisecond)

end Jiff

/-- A packed value whose offset is in range and whose count is at most `jiffMaxMillisecond`. -/
def InJiffRange (packed : UInt64) : Prop :=
  validOffsetMinutes (decodeOffsetMinutes packed) = true ∧ jiffDisplayable (packed >>> 12) = true

instance (packed : UInt64) : Decidable (InJiffRange packed) := inferInstanceAs (Decidable (_ ∧ _))

/-- A `from_millisecond` that checks the upper end of Jiff's range and nothing else, for the
examples. -/
def jiffRangeCheck (millis : Int64) : Except String Unit :=
  if millis.toInt ≤ jiffMaxMillisecond then .ok ()
  else .error "parameter 'millisecond' is not in the required range"

theorem acceptsJiffRange_jiffRangeCheck : AcceptsJiffRange jiffRangeCheck := by
  intro millis _
  unfold jiffRangeCheck
  split
  · next hle => exact ⟨fun _ => hle, fun _ => rfl⟩
  · next hgt => exact ⟨fun h => absurd h Bool.false_ne_true, fun hle => absurd hle hgt⟩

/-- The `u64` that `from_parts` builds: `(millis << OFFSET_BITS) | offset_bits`, where
`offset_bits` is `(i32::from(offset_minutes) & OFFSET_MASK as i32) as u64`. -/
def packParts (millis : UInt64) (offsetMinutes : Int16) : UInt64 :=
  (millis <<< 12) ||| (offsetMinutes.toInt32 &&& offsetMask.toUInt32.toInt32).toInt64.toUInt64

/-! ### The packing arithmetic -/

theorem toNat_offsetMask_bits (packed : UInt64) :
    ((packed &&& offsetMask).toUInt16.toInt16).toBitVec.toNat = packed.toNat % 4096 := by
  simp only [UInt16.toBitVec_toInt16, UInt64.toBitVec_toUInt16, UInt64.toBitVec_and,
    BitVec.toNat_setWidth, BitVec.toNat_and, UInt64.toNat_toBitVec]
  have hmask : offsetMask.toNat = 2 ^ 12 - 1 := rfl
  rw [hmask, Nat.and_two_pow_sub_one_eq_mod]
  omega

/-- Shifting an `i16` four bits up and arithmetically back down keeps its low 12 bits as a
signed number. -/
theorem toInt_shift_four (raw : Int16) :
    ((raw <<< 4) >>> 4).toInt = Int.bmod (raw.toBitVec.toNat * 16) 65536 / 16 := by
  have hfour : (Int16.toBitVec 4).smod 16 = 4#16 := by decide
  rw [Int16.toInt, Int16.toBitVec_shiftRight, Int16.toBitVec_shiftLeft, hfour,
    BitVec.sshiftRight_eq', BitVec.toInt_sshiftRight, BitVec.shiftLeft_eq', BitVec.toInt_shiftLeft]
  simp [Int.shiftRight_eq_div_pow, Nat.shiftLeft_eq]

/-- `decode_offset_minutes` reads the low 12 bits as two's complement. -/
theorem toInt_decodeOffsetMinutes (packed : UInt64) :
    (decodeOffsetMinutes packed).toInt =
      if packed.toNat % 4096 < 2048 then (packed.toNat % 4096 : ℤ)
      else packed.toNat % 4096 - 4096 := by
  rw [decodeOffsetMinutes, toInt_shift_four, toNat_offsetMask_bits]
  simp only [Int.bmod]
  split <;> split <;> omega

theorem toNat_offsetBits (offsetMinutes : Int16) :
    (offsetMinutes.toInt32 &&& offsetMask.toUInt32.toInt32).toInt64.toUInt64.toNat =
      offsetMinutes.toBitVec.toNat % 4096 := by
  have hmask : offsetMask.toUInt32 = 4095 := rfl
  have hlt := offsetMinutes.toBitVec.isLt
  simp only [hmask, Int32.toInt64, UInt32.toInt32_ofNat, Int32.toBitVec_and, Int16.toBitVec_toInt32,
    Int32.toBitVec_ofNat, BitVec.ofNat_eq_ofNat, BitVec.signExtend_and, BitVec.reduceSignExtend,
    UInt64.ofBitVec_and, UInt64.ofBitVec_ofNat, UInt64.toNat_and, UInt64.toNat_ofBitVec]
  rw [show UInt64.toNat 4095 = 2 ^ 12 - 1 from rfl, Nat.and_two_pow_sub_one_eq_mod,
    BitVec.toNat_signExtend, BitVec.toNat_setWidth, BitVec.toNat_signExtend, BitVec.toNat_setWidth]
  split <;> split <;> omega

/-- Below `2 ^ 52` milliseconds the two fields of `packParts` do not overlap. -/
theorem toNat_packParts {millis : UInt64} (hmillis : millis ≤ maxPackedMillis)
    (offsetMinutes : Int16) :
    (packParts millis offsetMinutes).toNat = millis.toNat * 4096 + offsetMinutes.toBitVec.toNat % 4096 := by
  have hmax : maxPackedMillis.toNat = 2 ^ 52 - 1 := rfl
  have hle : millis.toNat ≤ 2 ^ 52 - 1 := hmax ▸ UInt64.le_iff_toNat_le.mp hmillis
  have htwelve : UInt64.toNat 12 % 64 = 12 := rfl
  have hfits : millis.toNat <<< 12 < 2 ^ 64 := by rw [Nat.shiftLeft_eq]; omega
  have hbits : offsetMinutes.toBitVec.toNat % 4096 < 2 ^ 12 := by omega
  rw [packParts, UInt64.toNat_or, UInt64.toNat_shiftLeft, htwelve, Nat.mod_eq_of_lt hfits,
    toNat_offsetBits, ← Nat.shiftLeft_add_eq_or_of_lt hbits, Nat.shiftLeft_eq]

theorem packParts_shiftRight {millis : UInt64} (hmillis : millis ≤ maxPackedMillis)
    (offsetMinutes : Int16) : packParts millis offsetMinutes >>> 12 = millis := by
  have htwelve : UInt64.toNat 12 % 64 = 12 := rfl
  apply UInt64.toNat_inj.mp
  rw [UInt64.toNat_shiftRight, htwelve, toNat_packParts hmillis, Nat.shiftRight_eq_div_pow]
  omega

/-- The offsets `valid_offset_minutes` accepts, as integers. -/
theorem validOffsetMinutes_iff (offsetMinutes : Int16) :
    validOffsetMinutes offsetMinutes = true ↔
      -1439 ≤ offsetMinutes.toInt ∧ offsetMinutes.toInt ≤ 1439 := by
  simp only [validOffsetMinutes, Bool.and_eq_true, decide_eq_true_eq, Int16.le_iff_toInt_le]
  rfl

theorem decodeOffsetMinutes_packParts {millis : UInt64} (hmillis : millis ≤ maxPackedMillis)
    {offsetMinutes : Int16} (hvalid : validOffsetMinutes offsetMinutes = true) :
    decodeOffsetMinutes (packParts millis offsetMinutes) = offsetMinutes := by
  obtain ⟨hlow, hhigh⟩ := (validOffsetMinutes_iff offsetMinutes).mp hvalid
  have hlt := offsetMinutes.toBitVec.isLt
  have hint : offsetMinutes.toInt = if 2 * offsetMinutes.toBitVec.toNat < 2 ^ 16
      then (offsetMinutes.toBitVec.toNat : ℤ) else offsetMinutes.toBitVec.toNat - 2 ^ 16 :=
    BitVec.toInt_eq_toNat_cond _
  apply Int16.toInt_inj.mp
  rw [toInt_decodeOffsetMinutes, toNat_packParts hmillis]
  split at hint <;> split <;> omega

/-- Every packed `u64` has its milliseconds below `2 ^ 52`. -/
theorem shiftRight_le_maxPackedMillis (packed : UInt64) : packed >>> 12 ≤ maxPackedMillis := by
  have htwelve : UInt64.toNat 12 % 64 = 12 := rfl
  have hmax : maxPackedMillis.toNat = 2 ^ 52 - 1 := rfl
  have hlt := packed.toNat_lt
  rw [UInt64.le_iff_toNat_le, UInt64.toNat_shiftRight, htwelve, hmax, Nat.shiftRight_eq_div_pow]
  omega

/-- Every packed value is rebuilt by `packParts` from its two fields. -/
theorem packParts_fields (packed : UInt64) :
    packParts (packed >>> 12) (decodeOffsetMinutes packed) = packed := by
  have htwelve : UInt64.toNat 12 % 64 = 12 := rfl
  have hbits : (decodeOffsetMinutes packed).toBitVec.toNat % 4096 = packed.toNat % 4096 := by
    have hint := toInt_decodeOffsetMinutes packed
    have hcond := BitVec.toInt_eq_toNat_cond (decodeOffsetMinutes packed).toBitVec
    have hlt := (decodeOffsetMinutes packed).toBitVec.isLt
    rw [← Int16.toInt] at hcond
    split at hint <;> split at hcond <;> omega
  apply UInt64.toNat_inj.mp
  rw [toNat_packParts (shiftRight_le_maxPackedMillis packed), hbits, UInt64.toNat_shiftRight,
    htwelve, Nat.shiftRight_eq_div_pow]
  omega

theorem isOk_of_eq_ok {ε α : Type} {result : Except ε α} {value : α} (h : result = .ok value) :
    result.isOk = true := by
  rw [h]
  rfl

/-- A count of 52 bits is an `i64` that is not negative, with the same value. -/
theorem toInt_toInt64_of_le {millis : UInt64} (hmillis : millis ≤ maxPackedMillis) :
    0 ≤ millis.toInt64 ∧ millis.toInt64.toInt = millis.toNat := by
  have hmax : maxPackedMillis.toNat = 2 ^ 52 - 1 := rfl
  have hle := UInt64.le_iff_toNat_le.mp hmillis
  have hint : millis.toInt64.toInt = millis.toNat := by
    rw [Int64.toInt, show millis.toInt64.toBitVec = millis.toBitVec from rfl,
      BitVec.toInt_eq_toNat_cond, if_pos (by simp; omega)]
    rfl
  refine ⟨Int64.le_iff_toInt_le.mpr ?_, hint⟩
  rw [hint, Int64.toInt_zero]
  omega

section Jiff

variable {fromMillisecond : Int64 → Except String Unit}

/-- Under Jiff's range, Jiff takes a count of 52 bits exactly when it is displayable. -/
theorem isOk_toInt64_iff (hjiff : AcceptsJiffRange fromMillisecond) {millis : UInt64}
    (hmillis : millis ≤ maxPackedMillis) :
    (fromMillisecond millis.toInt64).isOk = true ↔ jiffDisplayable millis = true := by
  obtain ⟨hnonneg, hint⟩ := toInt_toInt64_of_le hmillis
  rw [hjiff _ hnonneg, hint, jiffDisplayable, decide_eq_true_eq]
  omega

theorem isValidPacked_iff (hjiff : AcceptsJiffRange fromMillisecond) {packed : UInt64} :
    IsValidPacked fromMillisecond packed ↔ InJiffRange packed := by
  unfold IsValidPacked InJiffRange
  rw [isOk_toInt64_iff hjiff (shiftRight_le_maxPackedMillis packed)]

variable (fromMillisecond) in
/-- What `from_parts` needs to build a timestamp, as one statement for its three checks. -/
theorem isValidPacked_packParts {millis : UInt64} {offsetMinutes : Int16}
    (hmillis : millis ≤ maxPackedMillis) (hvalid : validOffsetMinutes offsetMinutes = true)
    (hjiff : (fromMillisecond millis.toInt64).isOk = true) :
    IsValidPacked fromMillisecond (packParts millis offsetMinutes) := by
  refine ⟨?_, ?_⟩
  · rwa [decodeOffsetMinutes_packParts hmillis hvalid]
  · rwa [packParts_shiftRight hmillis]

end Jiff

/-! ### The timestamp -/

/-- `LixTimestamp`: every constructor checks the packed value as `from_packed` does. -/
@[ext]
structure LixTimestamp (fromMillisecond : Int64 → Except String Unit) where
  packed : UInt64
  valid : IsValidPacked fromMillisecond packed
  deriving DecidableEq

namespace LixTimestamp

variable {fromMillisecond : Int64 → Except String Unit}

def millisecondsSinceUnixEpoch (timestamp : LixTimestamp fromMillisecond) : UInt64 :=
  timestamp.packed >>> 12

def offsetMinutes (timestamp : LixTimestamp fromMillisecond) : Int16 :=
  decodeOffsetMinutes timestamp.packed

variable (fromMillisecond) in
/-- `from_parts`. -/
def fromParts (millis : UInt64) (offsetMinutes : Int16) : Except String (LixTimestamp fromMillisecond) :=
  if hmillis : maxPackedMillis < millis then
    .error ("milliseconds since Unix epoch must fit in " ++ toString millisBits ++ " bits")
  else if hvalid : validOffsetMinutes offsetMinutes = true then
    match hjiff : fromMillisecond millis.toInt64 with
    | .ok _ => .ok ⟨packParts millis offsetMinutes, isValidPacked_packParts fromMillisecond
        (UInt64.not_lt.mp hmillis) hvalid (isOk_of_eq_ok hjiff)⟩
    | .error error => .error ("milliseconds are outside Jiff's display range: " ++ error)
  else
    .error ("timezone offset minutes must be in " ++ toString minOffsetMinutes.toInt ++ "..=" ++
      toString maxOffsetMinutes.toInt)

variable (fromMillisecond) in
/-- `from_packed`. -/
def fromPacked (packed : UInt64) : Except String (LixTimestamp fromMillisecond) :=
  if hvalid : validOffsetMinutes (decodeOffsetMinutes packed) = true then
    match hjiff : fromMillisecond (packed >>> 12).toInt64 with
    | .ok _ => .ok ⟨packed, hvalid, isOk_of_eq_ok hjiff⟩
    | .error error => .error ("packed milliseconds are outside Jiff's display range: " ++ error)
  else
    .error ("packed timezone offset minutes must be in " ++ toString minOffsetMinutes.toInt ++
      "..=" ++ toString maxOffsetMinutes.toInt)

variable (fromMillisecond) in
/-- `from_unix_millis_utc_lossy`: a negative count is the epoch, a count past 52 bits is cut to
52 bits, and a count that `from_parts` rejects after that is `from_parts(0, 0)`, whose failure
is the panic of its `expect`, `none`. -/
def fromUnixMillisUtcLossy (millis : Int64) : Option (LixTimestamp fromMillisecond) :=
  match fromParts fromMillisecond (min (max millis 0).toUInt64 maxPackedMillis) 0 with
  | .ok timestamp => some timestamp
  | .error _ => (fromParts fromMillisecond 0 0).toOption

theorem fields_injective {timestamp other : LixTimestamp fromMillisecond}
    (hmillis : timestamp.millisecondsSinceUnixEpoch = other.millisecondsSinceUnixEpoch)
    (hoffset : timestamp.offsetMinutes = other.offsetMinutes) : timestamp = other := by
  ext1
  rw [← packParts_fields timestamp.packed, ← packParts_fields other.packed]
  exact congrArg₂ packParts hmillis hoffset

/-- `from_parts` succeeds exactly on the counts of 52 bits that Jiff takes and the offsets in
range, and then returns the timestamp whose two accessors give back its arguments. -/
theorem fromParts_eq_ok_iff {millis : UInt64} {offsetMinutes : Int16}
    {timestamp : LixTimestamp fromMillisecond} :
    fromParts fromMillisecond millis offsetMinutes = .ok timestamp ↔
      millis ≤ maxPackedMillis ∧ validOffsetMinutes offsetMinutes = true ∧
        (fromMillisecond millis.toInt64).isOk = true ∧
          timestamp.millisecondsSinceUnixEpoch = millis ∧ timestamp.offsetMinutes = offsetMinutes := by
  unfold fromParts
  split
  · next hmillis =>
    simp only [reduceCtorEq, false_iff, not_and]
    exact fun hle => absurd hle (UInt64.not_le.mpr hmillis)
  · next hmillis =>
    have hle := UInt64.not_lt.mp hmillis
    split
    · next hvalid =>
      split
      · next hjiff =>
        have hbuilt := And.intro (packParts_shiftRight hle offsetMinutes)
          (decodeOffsetMinutes_packParts hle hvalid)
        constructor
        · rintro ⟨⟩
          exact ⟨hle, hvalid, isOk_of_eq_ok hjiff, hbuilt⟩
        · rintro ⟨-, -, -, hmillis', hoffset'⟩
          exact congrArg Except.ok (fields_injective (hbuilt.1.trans hmillis'.symm)
            (hbuilt.2.trans hoffset'.symm))
      · next hjiff => simp [hjiff, Except.isOk, Except.toBool]
    · next hvalid => simp [hvalid]

/-- `from_packed` accepts exactly the packed values of timestamps, and returns them as they are. -/
theorem fromPacked_eq_ok_iff {packed : UInt64} {timestamp : LixTimestamp fromMillisecond} :
    fromPacked fromMillisecond packed = .ok timestamp ↔ timestamp.packed = packed := by
  unfold fromPacked
  split
  · next hvalid =>
    split
    · next hjiff =>
      constructor
      · rintro ⟨⟩
        rfl
      · intro hpacked
        exact congrArg Except.ok (LixTimestamp.ext hpacked.symm)
    · next error hjiff =>
      simp only [reduceCtorEq, false_iff]
      rintro rfl
      have hok := timestamp.valid.2
      rw [hjiff] at hok
      cases hok
  · next hvalid =>
    simp only [reduceCtorEq, false_iff]
    rintro rfl
    exact hvalid timestamp.valid.1

theorem toNat_toUInt64_max (millis : Int64) : (max millis 0).toUInt64.toNat = millis.toNatClampNeg := by
  have hmax : max millis 0 = if millis ≤ 0 then 0 else millis := rfl
  have htoNat (x : Int64) : x.toUInt64.toNat = x.toBitVec.toNat := rfl
  rw [hmax, htoNat]
  split
  · next hle =>
    rw [Int64.le_iff_toInt_le, Int64.toInt_zero] at hle
    change _ = millis.toInt.toNat
    simp only [Int64.toBitVec_zero, BitVec.toNat_zero]
    omega
  · next hlt =>
    rw [Int64.le_iff_toInt_le, Int64.toInt_zero] at hlt
    exact Int64.toNat_toBitVec_of_le (Int64.le_iff_toInt_le.mpr (by rw [Int64.toInt_zero]; omega))

theorem toNat_min_maxPackedMillis (millis : UInt64) :
    (min millis maxPackedMillis).toNat = min millis.toNat maxPackedMillis.toNat := by
  have hmin : min millis maxPackedMillis = if millis ≤ maxPackedMillis then millis
      else maxPackedMillis := rfl
  rw [hmin]
  split
  · next hle => rw [UInt64.le_iff_toNat_le] at hle; omega
  · next hlt => rw [UInt64.le_iff_toNat_le] at hlt; omega

theorem fromParts_ok_of_valid {millis : UInt64} {offsetMinutes : Int16}
    (hmillis : millis ≤ maxPackedMillis) (hvalid : validOffsetMinutes offsetMinutes = true)
    (hjiff : (fromMillisecond millis.toInt64).isOk = true) :
    ∃ timestamp, fromParts fromMillisecond millis offsetMinutes = .ok timestamp :=
  ⟨⟨packParts millis offsetMinutes, isValidPacked_packParts fromMillisecond hmillis hvalid hjiff⟩,
    fromParts_eq_ok_iff.mpr ⟨hmillis, hvalid, hjiff, packParts_shiftRight hmillis offsetMinutes,
      decodeOffsetMinutes_packParts hmillis hvalid⟩⟩

/-- Under Jiff's range, every timestamp has a count Jiff displays, and is what `from_parts`
builds from its two accessors and what `from_packed` returns for its packed value. -/
theorem fromParts_fromPacked_fields (hjiff : AcceptsJiffRange fromMillisecond)
    (timestamp : LixTimestamp fromMillisecond) :
    timestamp.millisecondsSinceUnixEpoch.toNat ≤ jiffMaxMillisecond ∧
      fromParts fromMillisecond timestamp.millisecondsSinceUnixEpoch timestamp.offsetMinutes =
        .ok timestamp ∧ fromPacked fromMillisecond timestamp.packed = .ok timestamp := by
  have hrange := ((isValidPacked_iff hjiff).mp timestamp.valid).2
  rw [jiffDisplayable, decide_eq_true_eq] at hrange
  exact ⟨hrange, fromParts_eq_ok_iff.mpr ⟨shiftRight_le_maxPackedMillis _, timestamp.valid.1,
    timestamp.valid.2, rfl, rfl⟩, fromPacked_eq_ok_iff.mpr rfl⟩

/-- A timestamp at 2023-11-14T22:13:20Z, five hours behind UTC. -/
def sample : LixTimestamp jiffRangeCheck := ⟨packParts 1700000000000 (-300), by decide⟩

theorem fromParts_fromPacked_fields_sample :
    sample.millisecondsSinceUnixEpoch.toNat ≤ jiffMaxMillisecond ∧
      fromParts jiffRangeCheck sample.millisecondsSinceUnixEpoch sample.offsetMinutes = .ok sample ∧
      fromPacked jiffRangeCheck sample.packed = .ok sample :=
  fromParts_fromPacked_fields acceptsJiffRange_jiffRangeCheck sample

/-- Under Jiff's range, `from_unix_millis_utc_lossy` never panics: it keeps a count that Jiff
displays and turns every other count, negative or past Jiff's range, into the epoch; the offset
is always UTC. -/
theorem fromUnixMillisUtcLossy_fields (hjiff : AcceptsJiffRange fromMillisecond) (millis : Int64) :
    ∃ timestamp, fromUnixMillisUtcLossy fromMillisecond millis = some timestamp ∧
      timestamp.millisecondsSinceUnixEpoch.toNat =
        (if millis.toNatClampNeg ≤ jiffMaxMillisecond then millis.toNatClampNeg else 0) ∧
      timestamp.offsetMinutes = 0 := by
  have hclamped := toNat_min_maxPackedMillis (max millis 0).toUInt64
  rw [toNat_toUInt64_max] at hclamped
  have hbound : jiffMaxMillisecond < maxPackedMillis.toNat := by decide
  have hcut : min (max millis 0).toUInt64 maxPackedMillis ≤ maxPackedMillis := by
    rw [UInt64.le_iff_toNat_le, hclamped]
    exact Nat.min_le_right _ _
  have hutc : validOffsetMinutes 0 = true := by decide
  unfold fromUnixMillisUtcLossy
  cases hparts : fromParts fromMillisecond (min (max millis 0).toUInt64 maxPackedMillis) 0 with
  | ok timestamp =>
    obtain ⟨-, -, hok, hmillis, hoffset⟩ := fromParts_eq_ok_iff.mp hparts
    rw [isOk_toInt64_iff hjiff hcut, jiffDisplayable, decide_eq_true_eq] at hok
    refine ⟨timestamp, rfl, ?_, hoffset⟩
    rw [hmillis, hclamped]
    split <;> omega
  | error message =>
    have hfar : ¬jiffDisplayable (min (max millis 0).toUInt64 maxPackedMillis) = true := by
      intro hdisplay
      obtain ⟨timestamp, hok⟩ := fromParts_ok_of_valid hcut hutc
        ((isOk_toInt64_iff hjiff hcut).mpr hdisplay)
      rw [hparts] at hok
      cases hok
    rw [jiffDisplayable, decide_eq_true_eq, hclamped] at hfar
    have hzero : (0 : UInt64) ≤ maxPackedMillis := by decide
    obtain ⟨epoch, hepoch⟩ := fromParts_ok_of_valid hzero hutc
      ((isOk_toInt64_iff hjiff hzero).mpr (by decide))
    obtain ⟨-, -, -, hmillis, hoffset⟩ := fromParts_eq_ok_iff.mp hepoch
    refine ⟨epoch, by rw [hepoch]; rfl, ?_, hoffset⟩
    rw [hmillis]
    split <;> first | rfl | omega

theorem fromUnixMillisUtcLossy_fields_sample :
    ∃ timestamp, fromUnixMillisUtcLossy jiffRangeCheck 253402207200001 = some timestamp ∧
      timestamp.millisecondsSinceUnixEpoch.toNat =
        (if (253402207200001 : Int64).toNatClampNeg ≤ jiffMaxMillisecond then
          (253402207200001 : Int64).toNatClampNeg else 0) ∧
      timestamp.offsetMinutes = 0 :=
  fromUnixMillisUtcLossy_fields acceptsJiffRange_jiffRangeCheck 253402207200001

end LixTimestamp

end Lix.Timestamp
