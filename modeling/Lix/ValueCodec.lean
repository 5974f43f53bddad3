import Lix.NodeCodecDirect
import Lix.Timestamp

/-! The value half of `tracked_state/codec.rs` that reads: `decode_value_view` checks the length
of a stored value, takes its two ids, reads the state tail, insists that the tail ends the
value, and checks both timestamps as `LixTimestamp::from_packed` does. `decode_value` and
`decode_visible_value` return what it reads, the second dropping tombstones on request.

The decoder is the exact inverse of `encode_value_ref` on the values whose timestamps are valid:
it accepts precisely their encodings, so every stored value has one spelling. -/
namespace Lix.NodeCodec
open ExceptSpec ListWindow KeyCodec Timestamp

/-- `value_codec_error`. -/
def valueCodecError (message : String) : LixError := codecError ("tracked-state value " ++ message)

theorem add_sixteen_le_of_valueMinBytes_le {bytes : List UInt8} (start : ℕ)
    (hstart : start ≤ valueCommitIdStart) (hlen : valueMinBytes ≤ bytes.length) :
    start + 16 ≤ bytes.length := by
  unfold valueMinBytes valueStateTailStart at hlen
  unfold valueCommitIdStart at hstart
  omega

/-- The 16 bytes of an id at `start`, the `try_into` of a fixed slice of a value whose length
has been checked. -/
def idAt (bytes : List UInt8) (start : ℕ) (hfits : start + 16 ≤ bytes.length) : Vector UInt8 16 :=
  ⟨(window bytes start (start + 16)).toArray, length_window_of_add_le hfits⟩

section Decoders

variable (fromMillisecond : Int64 → Except String Unit) (usizeBits : ℕ)

/-- `decode_value_timestamp`. -/
def decodeValueTimestamp (packed : ℕ) (field : String) :
    Except LixError (LixTimestamp fromMillisecond) :=
  (LixTimestamp.fromPacked fromMillisecond packed.toUInt64).mapError fun error =>
    valueCodecError ("has invalid " ++ field ++ ": " ++ error)

/-- `decode_value_view`, which is also `decode_value`: `tracked_value_from_storage` moves the
fields over as they are. -/
def decodeValueView (bytes : List UInt8) : Except LixError TrackedStateIndexValue :=
  if hlen : valueMinBytes ≤ bytes.length ∧ bytes.length ≤ valueMaxBytes then do
    let changeId := idAt bytes 0 (add_sixteen_le_of_valueMinBytes_le 0 (Nat.zero_le _) hlen.1)
    let commitId := idAt bytes valueCommitIdStart
      (add_sixteen_le_of_valueMinBytes_le valueCommitIdStart (Nat.le_refl _) hlen.1)
    let ((deleted, createdAtPacked, updatedAtPacked), offset) ←
      readValueTailFields usizeBits bytes valueStateTailStart "tracked-state value"
    if offset ≠ bytes.length then throw (valueCodecError "has trailing bytes")
    let createdAt ← decodeValueTimestamp fromMillisecond createdAtPacked "created_at"
    let updatedAt ← decodeValueTimestamp fromMillisecond updatedAtPacked "updated_at"
    return { changeId, commitId, deleted, createdAt := createdAt.packed,
             updatedAt := updatedAt.packed }
  else
    .error (valueCodecError ("has " ++ toString bytes.length ++ " bytes; expected " ++
      toString valueMinBytes ++ "..=" ++ toString valueMaxBytes))

/-- `decode_visible_value`: a tombstone is `None` unless tombstones are asked for. -/
def decodeVisibleValue (bytes : List UInt8) (includeTombstones : Bool) :
    Except LixError (Option TrackedStateIndexValue) := do
  let view ← decodeValueView fromMillisecond usizeBits bytes
  if view.deleted && !includeTombstones then return none
  return some view

end Decoders

/-! ### Reading a value back -/

section Timestamps

variable {fromMillisecond : Int64 → Except String Unit}

theorem decodeValueTimestamp_eq_ok_iff {packed : ℕ} {field : String}
    {timestamp : LixTimestamp fromMillisecond} :
    decodeValueTimestamp fromMillisecond packed field = .ok timestamp ↔
      timestamp.packed = packed.toUInt64 := by
  rw [← LixTimestamp.fromPacked_eq_ok_iff, decodeValueTimestamp]
  cases LixTimestamp.fromPacked fromMillisecond packed.toUInt64 <;> simp [Except.mapError]

/-- A timestamp the decoder accepts is the number it was given, when that number is a `u64`. -/
theorem toNat_packed_of_decodeValueTimestamp {packed : ℕ} {field : String}
    {timestamp : LixTimestamp fromMillisecond}
    (h : decodeValueTimestamp fromMillisecond packed field = .ok timestamp)
    (hlt : packed < 2 ^ 64) : timestamp.packed.toNat = packed := by
  rw [decodeValueTimestamp_eq_ok_iff.mp h, Nat.toUInt64_eq, UInt64.toNat_ofNat_of_lt' hlt]

end Timestamps

theorem idAt_encodeValueRef_changeId (value : TrackedStateIndexValue)
    (hfits : 0 + 16 ≤ (encodeValueRef value).length) :
    idAt (encodeValueRef value) 0 hfits = value.changeId := by
  apply Vector.toList_inj.mp
  simp only [idAt, Vector.toList_mk, window_zero]
  exact (encodeValueRef_parts value).1

theorem idAt_encodeValueRef_commitId (value : TrackedStateIndexValue)
    (hfits : valueCommitIdStart + 16 ≤ (encodeValueRef value).length) :
    idAt (encodeValueRef value) valueCommitIdStart hfits = value.commitId := by
  apply Vector.toList_inj.mp
  simp only [idAt, Vector.toList_mk]
  exact (encodeValueRef_parts value).2.1

section RoundTrip

variable {fromMillisecond : Int64 → Except String Unit} {usizeBits : ℕ}

/-- The decoder inverts `encode_value_ref` on every value whose timestamps are timestamps. -/
theorem decodeValueView_encodeValueRef (hfits : valueMaxBytes < 2 ^ usizeBits)
    {value : TrackedStateIndexValue} (hcreated : IsValidPacked fromMillisecond value.createdAt)
    (hupdated : IsValidPacked fromMillisecond value.updatedAt) :
    decodeValueView fromMillisecond usizeBits (encodeValueRef value) = .ok value := by
  have hlen := IsValueRef.length_mem ⟨value, rfl⟩
  have htail : (encodeValueRef value).drop valueStateTailStart =
      writeValueTail value.deleted value.createdAt.toNat value.updatedAt.toNat ++ [] := by
    rw [List.append_nil]
    exact (encodeValueRef_parts value).2.2
  have hread : readValueTailFields usizeBits (encodeValueRef value) valueStateTailStart
      "tracked-state value" = .ok ((value.deleted, value.createdAt.toNat, value.updatedAt.toNat),
        (encodeValueRef value).length) := by
    rw [length_encodeValueRef]
    exact readValueTailFields_writeValueTail value.createdAt.toNat_lt value.updatedAt.toNat_lt
      htail (by omega)
  have hcreatedAt : decodeValueTimestamp fromMillisecond value.createdAt.toNat "created_at" =
      .ok ⟨value.createdAt, hcreated⟩ :=
    decodeValueTimestamp_eq_ok_iff.mpr UInt64.ofNat_toNat.symm
  have hupdatedAt : decodeValueTimestamp fromMillisecond value.updatedAt.toNat "updated_at" =
      .ok ⟨value.updatedAt, hupdated⟩ :=
    decodeValueTimestamp_eq_ok_iff.mpr UInt64.ofNat_toNat.symm
  rw [decodeValueView, dif_pos hlen]
  simp only [hread, idAt_encodeValueRef_changeId, idAt_encodeValueRef_commitId, hcreatedAt,
    hupdatedAt, bind, Except.bind, ne_eq, not_true_eq_false, ite_false, pure, Except.pure]

/-- Whatever the decoder accepts is the encoding of what it returns, with valid timestamps. -/
theorem decodeValueView_spec {bytes : List UInt8} {value : TrackedStateIndexValue}
    (h : decodeValueView fromMillisecond usizeBits bytes = .ok value) :
    IsValidPacked fromMillisecond value.createdAt ∧ IsValidPacked fromMillisecond value.updatedAt ∧
      bytes = encodeValueRef value := by
  unfold decodeValueView at h
  split at h
  · next hlen =>
    obtain ⟨⟨⟨deleted, createdAtPacked, updatedAtPacked⟩, offset⟩, hread, h⟩ := bind_eq_ok.mp h
    obtain ⟨hend, h⟩ := ite_throw_eq_ok.mp h
    obtain ⟨createdAt, hcreatedAt, h⟩ := bind_eq_ok.mp h
    obtain ⟨updatedAt, hupdatedAt, h⟩ := bind_eq_ok.mp h
    obtain rfl := (pure_eq_ok.mp h).symm
    obtain ⟨hcreated, hupdated, -, htail⟩ := readValueTailFields_spec hread
    rw [not_not] at hend
    subst hend
    refine ⟨createdAt.valid, updatedAt.valid, ?_⟩
    have hcreatedNat := toNat_packed_of_decodeValueTimestamp hcreatedAt hcreated
    have hupdatedNat := toNat_packed_of_decodeValueTimestamp hupdatedAt hupdated
    rw [encodeValueRef]
    simp only [idAt, Vector.toList_mk, window_zero, hcreatedNat, hupdatedNat, ← htail,
      window_length]
    exact (take_append_window_append_drop bytes).symm
  · cases h

/-- Under Jiff's range, `decode_value` accepts exactly the encodings of the values whose
timestamps have their offsets in range and counts that Jiff displays, and returns the value
encoded. -/
theorem decodeValueView_eq_ok_iff (hfits : valueMaxBytes < 2 ^ usizeBits)
    (hjiff : AcceptsJiffRange fromMillisecond) {bytes : List UInt8}
    {value : TrackedStateIndexValue} :
    decodeValueView fromMillisecond usizeBits bytes = .ok value ↔
      InJiffRange value.createdAt ∧ InJiffRange value.updatedAt ∧ bytes = encodeValueRef value := by
  rw [← isValidPacked_iff hjiff, ← isValidPacked_iff hjiff]
  constructor
  · exact decodeValueView_spec
  · rintro ⟨hcreated, hupdated, rfl⟩
    exact decodeValueView_encodeValueRef hfits hcreated hupdated

end RoundTrip

/-- A live row written at 2023-11-14T22:13:20Z and updated a second later at UTC-5. -/
def sampleValue : TrackedStateIndexValue where
  changeId := Vector.replicate 16 1
  commitId := Vector.replicate 16 2
  deleted := false
  createdAt := packParts 1700000000000 0
  updatedAt := packParts 1700000001000 (-300)

theorem decodeValueView_eq_ok_iff_sample :
    decodeValueView jiffRangeCheck 64 (encodeValueRef sampleValue) = .ok sampleValue :=
  (decodeValueView_eq_ok_iff (by decide) acceptsJiffRange_jiffRangeCheck).mpr
    ⟨by decide, by decide, rfl⟩

end Lix.NodeCodec
