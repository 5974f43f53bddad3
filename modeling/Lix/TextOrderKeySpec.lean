import Lix.TextOrderKey
import Lix.LexCompare

/-! What the text plugin's order keys guarantee. `evenly_between` fills an ordered gap with as
many valid keys as asked, increasing and strictly inside the gap. The digit loop of `midpoint`,
run as the source runs it over digit indexes, stops within one step past the longer bound and
gives the model's midpoint. The snapshot string orders like the key and reads back as it. -/
namespace Lix.Text
open LexCompare

section Steps

/-- The `loop` of `midpoint` as the source runs it: the digits at `index`, an ended previous
bound reading `MIN_BYTE` and an ended next bound `BYTE_BASE`, for at most `fuel` steps. -/
def midpointSteps (previous next : List UInt8) : ℕ → ℕ → Option (List UInt8)
  | 0, _ => none
  | fuel + 1, index =>
    let previousDigit := (previous[index]?.map UInt8.toNat).getD minByte.toNat
    let nextDigit := (next[index]?.map UInt8.toNat).getD byteBase
    if nextDigit > previousDigit + 1 then
      some [UInt8.ofNat (previousDigit + (nextDigit - previousDigit) / 2)]
    else (midpointSteps previous next fuel (index + 1)).map (UInt8.ofNat previousDigit :: ·)

theorem digitPairs_nil_nil : digitPairs [] [] = [(minByte.toNat, byteBase)] := rfl

/-- Past both bounds the pairs are the digits at the front, then the pairs of the rests. -/
theorem digitPairs_eq_cons {ps ns : List UInt8} (h : ps ≠ [] ∨ ns ≠ []) :
    digitPairs ps ns = ((ps.head?.map UInt8.toNat).getD minByte.toNat,
      (ns.head?.map UInt8.toNat).getD byteBase) :: digitPairs ps.tail ns.tail := by
  match ps, ns with
  | [], [] => simp at h
  | [], n :: ns => rfl
  | p :: ps, [] =>
    cases ps <;> rfl
  | p :: ps, n :: ns => rfl

theorem midpointSteps_eq_midpointLoop (previous next : List UInt8) : ∀ fuel index : ℕ,
    max previous.length next.length - index < fuel →
    midpointSteps previous next fuel index =
      some (midpointLoop (digitPairs (previous.drop index) (next.drop index)))
  | 0, _, h => absurd h (Nat.not_lt_zero _)
  | fuel + 1, index, h => by
    by_cases hend : max previous.length next.length ≤ index
    · have hp : previous.drop index = [] := List.drop_eq_nil_of_le (by omega)
      have hn : next.drop index = [] := List.drop_eq_nil_of_le (by omega)
      have hpi : previous[index]? = none := List.getElem?_eq_none (by omega)
      have hni : next[index]? = none := List.getElem?_eq_none (by omega)
      rw [hp, hn, digitPairs_nil_nil, midpointLoop_stop _ (by decide)]
      simp [midpointSteps, hpi, hni, minByte, byteBase]
    · have hne : previous.drop index ≠ [] ∨ next.drop index ≠ [] := by
        by_cases hl : index < previous.length
        · exact Or.inl (by simpa using hl)
        · exact Or.inr (by simp; omega)
      rw [digitPairs_eq_cons hne, List.head?_drop, List.head?_drop, List.tail_drop,
        List.tail_drop]
      simp only [midpointSteps]
      split_ifs with hstop
      · rw [midpointLoop_stop _ hstop]
      · rw [midpointLoop_copy _ hstop,
          midpointSteps_eq_midpointLoop previous next fuel (index + 1) (by omega)]
        rfl

/-- `midpoint` stops within one digit step past the longer bound, with the model's result. -/
theorem midpointSteps_bound (previous next : Option (List UInt8)) :
    midpointSteps (previous.getD []) (next.getD [])
        (max (previous.getD []).length (next.getD []).length + 1) 0 =
      some (midpoint previous next) := by
  rw [midpointSteps_eq_midpointLoop _ _ _ 0 (by omega), List.drop_zero, List.drop_zero]
  rfl

end Steps

section SnapshotOrder

/-- The digit a nibble is written as. -/
def hexChar (nibble : UInt8) : Char := hexAlphabet.getD nibble.toNat '0'

/-- The characters of a snapshot string. -/
def hexChars (bytes : List UInt8) : List Char :=
  bytes.flatMap fun (byte : UInt8) => [hexChar (byte >>> 4), hexChar (byte &&& 0x0f)]

theorem toList_encodeHex (bytes : List UInt8) : (encodeHex bytes).toList = hexChars bytes := by
  rw [encodeHex, String.toList_ofList]
  rfl

theorem hexAlphabet_lt_iff : ∀ n < 16, ∀ m < 16,
    hexAlphabet.getD n '0' < hexAlphabet.getD m '0' ↔ n < m := by
  decide

theorem hexAlphabet_eq_iff : ∀ n < 16, ∀ m < 16,
    hexAlphabet.getD n '0' = hexAlphabet.getD m '0' ↔ n = m := by
  decide

theorem toNat_shiftRight_four (byte : UInt8) : (byte >>> 4).toNat = byte.toNat / 16 := by
  simp [UInt8.toNat_shiftRight, Nat.shiftRight_eq_div_pow]

theorem toNat_and_fifteen (byte : UInt8) : (byte &&& 0x0f).toNat = byte.toNat % 16 := by
  simpa using Nat.and_two_pow_sub_one_eq_mod byte.toNat 4

/-- Both nibbles of a byte index the hexadecimal alphabet. -/
theorem nibbles_lt_sixteen (byte : UInt8) : byte.toNat / 16 < 16 ∧ byte.toNat % 16 < 16 := by
  have := byte.toNat_lt
  omega

/-- A byte's two digits compare like the byte: high nibble first, then low nibble. -/
theorem hexChar_lt_iff (x y : UInt8) :
    hexChar (x >>> 4) < hexChar (y >>> 4) ∨
        hexChar (x >>> 4) = hexChar (y >>> 4) ∧ hexChar (x &&& 0x0f) < hexChar (y &&& 0x0f) ↔
      x.toNat < y.toNat := by
  obtain ⟨hxh, hxl⟩ := nibbles_lt_sixteen x
  obtain ⟨hyh, hyl⟩ := nibbles_lt_sixteen y
  simp only [hexChar, toNat_shiftRight_four, toNat_and_fifteen, hexAlphabet_lt_iff _ hxh _ hyh,
    hexAlphabet_eq_iff _ hxh _ hyh, hexAlphabet_lt_iff _ hxl _ hyl]
  omega

theorem hexChar_eq_iff (x y : UInt8) :
    hexChar (x >>> 4) = hexChar (y >>> 4) ∧ hexChar (x &&& 0x0f) = hexChar (y &&& 0x0f) ↔
      x.toNat = y.toNat := by
  obtain ⟨hxh, hxl⟩ := nibbles_lt_sixteen x
  obtain ⟨hyh, hyl⟩ := nibbles_lt_sixteen y
  simp only [hexChar, toNat_shiftRight_four, toNat_and_fifteen, hexAlphabet_eq_iff _ hxh _ hyh,
    hexAlphabet_eq_iff _ hxl _ hyl]
  omega

theorem hexChars_eq_iff : ∀ xs ys : List UInt8, hexChars xs = hexChars ys ↔ xs = ys
  | [], [] => by simp [hexChars]
  | [], _ :: _ => by simp [hexChars]
  | _ :: _, [] => by simp [hexChars]
  | x :: xs, y :: ys => by
    have h := hexChars_eq_iff xs ys
    simp only [hexChars, List.flatMap_cons, List.cons_append, List.nil_append, List.cons.injEq]
      at h ⊢
    rw [h, ← UInt8.toNat_inj, ← hexChar_eq_iff x y]
    tauto

/-- The snapshot characters compare like the bytes. -/
theorem hexChars_lt_iff : ∀ xs ys : List UInt8, hexChars xs < hexChars ys ↔ compare xs ys = .lt
  | [], [] => by simp [hexChars]
  | [], _ :: _ => by simp [hexChars, List.nil_lt_cons]
  | _ :: _, [] => by simp [hexChars]
  | x :: xs, y :: ys => by
    have h := hexChars_lt_iff xs ys
    simp only [hexChars, List.flatMap_cons, List.cons_append, List.nil_append,
      List.cons_lt_cons_iff] at h ⊢
    rw [List.compare_cons_cons, Ordering.then_eq_lt, compare_uint8, Nat.compare_eq_lt,
      Nat.compare_eq_eq, ← hexChar_lt_iff x y, ← hexChar_eq_iff x y, ← h]
    tauto

/-- The snapshot string of a key compares as the key does. -/
theorem compare_toSnapshotString (a b : OrderKey) :
    compare a.toSnapshotString b.toSnapshotString = compare a b := by
  have hlt : a.toSnapshotString < b.toSnapshotString ↔ compare a.digits b.digits = .lt := by
    rw [String.lt_iff_toList_lt, OrderKey.toSnapshotString, OrderKey.toSnapshotString,
      toList_encodeHex, toList_encodeHex, hexChars_lt_iff]
  have heq : a.toSnapshotString = b.toSnapshotString ↔ a.digits = b.digits := by
    rw [← String.toList_inj, OrderKey.toSnapshotString, OrderKey.toSnapshotString,
      toList_encodeHex, toList_encodeHex, hexChars_eq_iff]
  rw [OrderKey.compare_def]
  show compareOfLessAndEq a.toSnapshotString b.toSnapshotString = _
  unfold compareOfLessAndEq
  split_ifs with hless hsame
  · exact (hlt.mp hless).symm
  · rw [heq.mp hsame, Std.ReflOrd.compare_self]
  · cases hc : compare a.digits b.digits with
    | lt => exact absurd (hlt.mpr hc) hless
    | eq => exact absurd (heq.mpr (compare_eq_iff.mp hc)) hsame
    | gt => rfl

end SnapshotOrder

/-- The order keys of the text plugin. `evenly_between` fills every ordered gap with `count`
valid keys, increasing and strictly inside the gap; `midpoint` stops within one digit step past
the longer bound; the snapshot string orders as the key does and reads back as it. -/
theorem orderKey_spec :
    (∀ previous next : Option OrderKey, BoundsOrdered previous next → ∀ count : ℕ,
      ∃ keys, OrderKey.evenlyBetween previous next count = .ok keys ∧ keys.length = count ∧
        keys.Pairwise (· < ·) ∧
        ∀ key ∈ keys, Between previous next key ∧ key.digits ≠ [] ∧ key.digits.getLast? ≠ some 0) ∧
    (∀ previous next : Option (List UInt8),
      midpointSteps (previous.getD []) (next.getD [])
          (max (previous.getD []).length (next.getD []).length + 1) 0 =
        some (midpoint previous next)) ∧
    ∀ a b : OrderKey, compare a.toSnapshotString b.toSnapshotString = compare a b ∧
      OrderKey.fromSnapshotString a.toSnapshotString = .ok a := by
  refine ⟨fun previous next h count => ?_, midpointSteps_bound,
    fun a b => ⟨compare_toSnapshotString a b, fromSnapshotString_toSnapshotString a⟩⟩
  obtain ⟨hsorted, hbetween⟩ := OrderKey.fillEvenly_sorted_between count count h
  refine ⟨_, OrderKey.evenlyBetween_eq_ok h count, OrderKey.length_fillEvenly le_rfl _ _, hsorted,
    fun key hkey => ⟨hbetween key hkey, key.valid.1, key.valid.2⟩⟩

theorem orderKey_spec_gap :
    BoundsOrdered (some (⟨[64], by decide⟩ : OrderKey)) (some ⟨[128], by decide⟩) ∧
      ∃ keys, OrderKey.evenlyBetween (some ⟨[64], by decide⟩) (some ⟨[128], by decide⟩) 3 =
          .ok keys ∧ keys.length = 3 ∧ keys.Pairwise (· < ·) ∧
        ∀ key ∈ keys, Between (some ⟨[64], by decide⟩) (some ⟨[128], by decide⟩) key ∧
          key.digits ≠ [] ∧ key.digits.getLast? ≠ some 0 := by
  have hbounds : BoundsOrdered (some (⟨[64], by decide⟩ : OrderKey)) (some ⟨[128], by decide⟩) := by
    intro p hp n hn
    rw [Option.mem_some_iff] at hp hn
    subst hp hn
    decide
  exact ⟨hbounds, orderKey_spec.1 _ _ hbounds 3⟩

end Lix.Text
