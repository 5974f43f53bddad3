import Lix.KeyCodec

/-! Line order keys of the text plugin (`plugins/text/src/order_key.rs`). A key is a non-empty
byte string that does not end in `00`, ordered byte-lexicographically. `midpoint` writes a key
strictly between two keys digit by digit, `fill_evenly` spreads `count` keys between two bounds
by halving, and a key is stored as lower-case hexadecimal. -/
namespace Lix.Text
open LexCompare KeyCodec

def minByte : UInt8 := 0
def byteBase : ℕ := 256

/-- What `OrderKey::new` asserts of its bytes. -/
def OrderKey.Valid (digits : List UInt8) : Prop := digits ≠ [] ∧ digits.getLast? ≠ some minByte

instance (digits : List UInt8) : Decidable (OrderKey.Valid digits) :=
  inferInstanceAs (Decidable (_ ∧ _))

structure OrderKey where
  digits : List UInt8
  valid : OrderKey.Valid digits
  deriving DecidableEq

namespace OrderKey

instance : Ord OrderKey := ⟨fun a b => compare a.digits b.digits⟩

instance : Std.TransOrd OrderKey where
  eq_swap := Std.OrientedOrd.eq_swap (α := List UInt8)
  isLE_trans := Std.TransOrd.isLE_trans (α := List UInt8)

instance : Std.LawfulEqOrd OrderKey where
  eq_of_compare {a b} h := by
    obtain ⟨da, va⟩ := a
    obtain ⟨db, vb⟩ := b
    obtain rfl : da = db := Std.LawfulEqOrd.eq_of_compare (α := List UInt8) h
    rfl

instance : LT OrderKey := ⟨fun a b => compare a b = .lt⟩

instance (a b : OrderKey) : Decidable (a < b) :=
  inferInstanceAs (Decidable (compare a.digits b.digits = .lt))

theorem lt_iff {a b : OrderKey} : a < b ↔ compare a.digits b.digits = .lt := Iff.rfl

theorem compare_def (a b : OrderKey) : compare a b = compare a.digits b.digits := rfl

theorem lt_trans {a b c : OrderKey} (hab : a < b) (hbc : b < c) : a < c := by
  rw [lt_iff] at *
  exact Std.TransCmp.lt_trans hab hbc

theorem lt_irrefl (a : OrderKey) : ¬a < a := by
  rw [lt_iff, compare_eq_iff.mpr rfl]
  exact nofun

theorem ne_of_lt {a b : OrderKey} (h : a < b) : a ≠ b := by
  rintro rfl
  exact lt_irrefl a h

theorem valid_cons (d : UInt8) {digits : List UInt8} (h : Valid digits) : Valid (d :: digits) := by
  obtain ⟨hne, hlast⟩ := h
  obtain ⟨x, xs, rfl⟩ := List.exists_cons_of_ne_nil hne
  exact ⟨List.cons_ne_nil _ _, by rwa [List.getLast?_cons_cons]⟩

theorem valid_singleton {d : UInt8} (h : d ≠ minByte) : Valid [d] :=
  ⟨List.cons_ne_nil _ _, by simpa using h⟩

theorem valid_of_cons {d : UInt8} {digits : List UInt8} (h : Valid (d :: digits))
    (hne : digits ≠ []) : Valid digits := by
  obtain ⟨x, xs, rfl⟩ := List.exists_cons_of_ne_nil hne
  exact ⟨hne, by rw [← List.getLast?_cons_cons (a := d)]; exact h.2⟩

end OrderKey

section Midpoint

/-! `midpoint` reads the digit pair at index 0, 1, … : a previous key that has ended reads
`MIN_BYTE`, a next key that has ended (or is absent) reads `BYTE_BASE`. The loop stops at the
first index where a digit fits strictly between the pair, at the latest at the first index past
both keys, whose pair is `(MIN_BYTE, BYTE_BASE)`. -/

/-- The pairs read once the next key has ended. -/
def digitsPastNext : List UInt8 → List (ℕ × ℕ)
  | [] => [(minByte.toNat, byteBase)]
  | p :: ps => (p.toNat, byteBase) :: digitsPastNext ps

/-- The pairs read once the previous key has ended. -/
def digitsPastPrevious : List UInt8 → List (ℕ × ℕ)
  | [] => [(minByte.toNat, byteBase)]
  | n :: ns => (minByte.toNat, n.toNat) :: digitsPastPrevious ns

def digitPairs : List UInt8 → List UInt8 → List (ℕ × ℕ)
  | [], next => digitsPastPrevious next
  | p :: ps, [] => digitsPastNext (p :: ps)
  | p :: ps, n :: ns => (p.toNat, n.toNat) :: digitPairs ps ns

/-- The digit loop of `midpoint`: copy the previous digit while no digit fits between the pair,
then write the middle digit and stop. -/
def midpointLoop : List (ℕ × ℕ) → List UInt8
  | [] => []
  | (previousDigit, nextDigit) :: rest =>
    if nextDigit > previousDigit + 1 then
      [UInt8.ofNat (previousDigit + (nextDigit - previousDigit) / 2)]
    else UInt8.ofNat previousDigit :: midpointLoop rest

def midpoint (previous next : Option (List UInt8)) : List UInt8 :=
  midpointLoop (digitPairs (previous.getD []) (next.getD []))

theorem midpointLoop_stop {p n : ℕ} (rest : List (ℕ × ℕ)) (h : p + 1 < n) :
    midpointLoop ((p, n) :: rest) = [UInt8.ofNat (p + (n - p) / 2)] := by
  simp [midpointLoop, h]

theorem midpointLoop_copy {p n : ℕ} (rest : List (ℕ × ℕ)) (h : ¬p + 1 < n) :
    midpointLoop ((p, n) :: rest) = UInt8.ofNat p :: midpointLoop rest := by
  simp [midpointLoop, h]

/-- Every pair the loop reads is a byte below at most `BYTE_BASE`. -/
def PairsInRange (pairs : List (ℕ × ℕ)) : Prop := ∀ q ∈ pairs, q.1 < byteBase ∧ q.2 ≤ byteBase

theorem pairsInRange_digitsPastNext (ps : List UInt8) : PairsInRange (digitsPastNext ps) := by
  induction ps with
  | nil => simp [PairsInRange, digitsPastNext, minByte, byteBase]
  | cons p ps ih =>
    intro q hq
    simp only [digitsPastNext, List.mem_cons] at hq
    rcases hq with rfl | hq
    · exact ⟨p.toNat_lt, le_rfl⟩
    · exact ih q hq

theorem pairsInRange_digitsPastPrevious (ns : List UInt8) :
    PairsInRange (digitsPastPrevious ns) := by
  induction ns with
  | nil => simp [PairsInRange, digitsPastPrevious, minByte, byteBase]
  | cons n ns ih =>
    intro q hq
    simp only [digitsPastPrevious, List.mem_cons] at hq
    rcases hq with rfl | hq
    · exact ⟨by simp [minByte, byteBase], n.toNat_lt.le⟩
    · exact ih q hq

theorem pairsInRange_digitPairs (ps ns : List UInt8) : PairsInRange (digitPairs ps ns) := by
  fun_induction digitPairs ps ns with
  | case1 ns => exact pairsInRange_digitsPastPrevious ns
  | case2 p ps => exact pairsInRange_digitsPastNext (p :: ps)
  | case3 p ps n ns ih =>
    intro q hq
    simp only [List.mem_cons] at hq
    rcases hq with rfl | hq
    · exact ⟨p.toNat_lt, n.toNat_lt.le⟩
    · exact ih q hq

/-- The pair past both keys, where the loop stops at the latest. -/
theorem end_mem_digitPairs (ps ns : List UInt8) : (minByte.toNat, byteBase) ∈ digitPairs ps ns := by
  have hnext : ∀ ps, (minByte.toNat, byteBase) ∈ digitsPastNext ps := by
    intro ps
    induction ps <;> simp_all [digitsPastNext]
  have hprev : ∀ ns, (minByte.toNat, byteBase) ∈ digitsPastPrevious ns := by
    intro ns
    induction ns <;> simp_all [digitsPastPrevious]
  fun_induction digitPairs ps ns with
  | case1 ns => exact hprev ns
  | case2 p ps => exact hnext (p :: ps)
  | case3 p ps n ns ih => exact List.mem_cons_of_mem _ ih

/-- The middle digit is a byte strictly between the pair. -/
theorem toNat_midDigit {p n : ℕ} (h : p + 1 < n) (hn : n ≤ byteBase) :
    (UInt8.ofNat (p + (n - p) / 2)).toNat = p + (n - p) / 2 := by
  have : p + (n - p) / 2 < 256 := by simp only [byteBase] at hn; omega
  exact UInt8.toNat_ofNat_of_lt' this

/-- The loop ends with its middle digit, which is never `MIN_BYTE`. -/
theorem valid_midpointLoop {pairs : List (ℕ × ℕ)} (hr : PairsInRange pairs)
    (hs : ∃ q ∈ pairs, q.1 + 1 < q.2) : OrderKey.Valid (midpointLoop pairs) := by
  induction pairs with
  | nil => simp at hs
  | cons q rest ih =>
    obtain ⟨p, n⟩ := q
    by_cases h : p + 1 < n
    · rw [midpointLoop_stop rest h]
      apply OrderKey.valid_singleton
      intro h0
      have := congrArg UInt8.toNat h0
      rw [toNat_midDigit h (hr _ (List.mem_cons_self ..)).2] at this
      simp only [minByte, UInt8.toNat_zero] at this
      omega
    · rw [midpointLoop_copy rest h]
      apply OrderKey.valid_cons
      apply ih (fun q hq => hr q (List.mem_cons_of_mem _ hq))
      obtain ⟨q, hq, hlt⟩ := hs
      rcases List.mem_cons.mp hq with rfl | hq
      · exact absurd hlt h
      · exact ⟨q, hq, hlt⟩

theorem valid_midpointLoop_digitPairs (ps ns : List UInt8) :
    OrderKey.Valid (midpointLoop (digitPairs ps ns)) :=
  valid_midpointLoop (pairsInRange_digitPairs ps ns)
    ⟨_, end_mem_digitPairs ps ns, by simp [minByte, byteBase]⟩

theorem valid_midpoint (previous next : Option (List UInt8)) :
    OrderKey.Valid (midpoint previous next) :=
  valid_midpointLoop_digitPairs _ _

theorem compare_cons_of_toNat_lt {a b : UInt8} (h : a.toNat < b.toNat) (as bs : List UInt8) :
    compare (a :: as) (b :: bs) = .lt := by
  rw [List.compare_cons_cons, compare_uint8, compare_nat_of_lt h]
  rfl

theorem compare_cons_of_toNat_gt {a b : UInt8} (h : b.toNat < a.toNat) (as bs : List UInt8) :
    compare (a :: as) (b :: bs) = .gt := by
  rw [List.compare_cons_cons, compare_uint8, compare_nat_of_gt h]
  rfl

/-- Once the next key has ended, the loop writes a key above the previous one. -/
theorem compare_midpointLoop_digitsPastNext (ps : List UInt8) :
    compare ps (midpointLoop (digitsPastNext ps)) = .lt := by
  induction ps with
  | nil => rfl
  | cons p ps ih =>
    have hp := p.toNat_lt
    rw [digitsPastNext]
    by_cases h : p.toNat + 1 < byteBase
    · rw [midpointLoop_stop _ h]
      apply compare_cons_of_toNat_lt
      rw [toNat_midDigit h le_rfl]
      simp only [byteBase] at h ⊢
      omega
    · rw [midpointLoop_copy _ h, UInt8.ofNat_toNat, compare_cons_left, ih]

/-- `midpoint` writes a key above the previous key, whatever the next one. -/
theorem compare_midpointLoop_digitPairs_left (ps ns : List UInt8) :
    compare ps (midpointLoop (digitPairs ps ns)) = .lt := by
  fun_induction digitPairs ps ns with
  | case1 ns =>
    obtain ⟨x, xs, hx⟩ := List.exists_cons_of_ne_nil (valid_midpointLoop_digitPairs [] ns).1
    rw [digitPairs] at hx
    rw [hx, List.compare_nil_cons]
  | case2 p ps => exact compare_midpointLoop_digitsPastNext (p :: ps)
  | case3 p ps n ns ih =>
    by_cases h : p.toNat + 1 < n.toNat
    · rw [midpointLoop_stop _ h]
      apply compare_cons_of_toNat_lt
      rw [toNat_midDigit h n.toNat_lt.le]
      omega
    · rw [midpointLoop_copy _ h, UInt8.ofNat_toNat, compare_cons_left, ih]

/-- Once the previous key has ended, the loop writes a key below the next one; a next key that
does not end in `00` has a nonzero digit left to go below. -/
theorem compare_midpointLoop_digitsPastPrevious {ns : List UInt8} (hv : OrderKey.Valid ns) :
    compare (midpointLoop (digitsPastPrevious ns)) ns = .lt := by
  induction ns with
  | nil => exact absurd rfl hv.1
  | cons n ns ih =>
    rw [digitsPastPrevious]
    have hmin : minByte.toNat = 0 := rfl
    by_cases h : minByte.toNat + 1 < n.toNat
    · rw [midpointLoop_stop _ h]
      apply compare_cons_of_toNat_lt
      rw [toNat_midDigit h n.toNat_lt.le]
      omega
    · rw [midpointLoop_copy _ h]
      rcases (show n.toNat = 0 ∨ n.toNat = 1 by omega) with h0 | h1
      · have hn : UInt8.ofNat minByte.toNat = n := UInt8.toNat_inj.mp (by simp [hmin, h0])
        have hns : ns ≠ [] := by
          rintro rfl
          exact hv.2 (by rw [List.getLast?_singleton, ← hn]; rfl)
        rw [hn, compare_cons_left]
        exact ih (OrderKey.valid_of_cons hv hns)
      · apply compare_cons_of_toNat_lt
        simp [hmin, h1]

/-- `midpoint` writes a key below a next key above the previous one. -/
theorem compare_midpointLoop_digitPairs_right {ps ns : List UInt8} (hlt : compare ps ns = .lt)
    (hv : OrderKey.Valid ns) : compare (midpointLoop (digitPairs ps ns)) ns = .lt := by
  fun_induction digitPairs ps ns with
  | case1 ns => exact compare_midpointLoop_digitsPastPrevious hv
  | case2 p ps => exact absurd hlt (by rw [List.compare_cons_nil]; exact nofun)
  | case3 p ps n ns ih =>
    by_cases h : p.toNat + 1 < n.toNat
    · rw [midpointLoop_stop _ h]
      apply compare_cons_of_toNat_lt
      rw [toNat_midDigit h n.toNat_lt.le]
      omega
    · rw [midpointLoop_copy _ h, UInt8.ofNat_toNat]
      rcases lt_trichotomy p.toNat n.toNat with hpn | hpn | hpn
      · exact compare_cons_of_toNat_lt hpn _ _
      · -- equal digits: the rest of the previous key is below the rest of the next key
        obtain rfl : p = n := UInt8.toNat_inj.mp hpn
        rw [compare_cons_left] at hlt ⊢
        have hns : ns ≠ [] := by
          rintro rfl
          cases ps with
          | nil => exact absurd hlt (by rw [compare_eq_iff.mpr rfl]; exact nofun)
          | cons x xs => exact absurd hlt (by rw [List.compare_cons_nil]; exact nofun)
        exact ih hlt (OrderKey.valid_of_cons hv hns)
      · exact absurd hlt (by rw [compare_cons_of_toNat_gt hpn]; exact nofun)

end Midpoint

section Snapshot

/-! The snapshot form of a key: two lower-case hexadecimal digits per byte. Decoding reads the
UTF-8 bytes of the text two at a time. -/

/-- `HEX` of `encode_hex`. -/
def hexAlphabet : List Char :=
  ['0', '1', '2', '3', '4', '5', '6', '7', '8', '9', 'a', 'b', 'c', 'd', 'e', 'f']

def encodeHex (bytes : List UInt8) : String :=
  String.ofList (bytes.flatMap fun (byte : UInt8) =>
    [hexAlphabet.getD (byte >>> 4).toNat '0', hexAlphabet.getD (byte &&& 0x0f).toNat '0'])

def hexDigit (byte : UInt8) : Option UInt8 :=
  if 48 ≤ byte ∧ byte ≤ 57 then some (byte - 48)
  else if 97 ≤ byte ∧ byte ≤ 102 then some (10 + byte - 97)
  else none

def hexDigitsError : String := "must contain only lowercase hexadecimal digits"

/-- The pairs of `chunks_exact(2)`; the length check before it leaves no byte over. -/
def decodeHexPairs : List UInt8 → Except String (List UInt8)
  | high :: low :: rest => do
    let some high := hexDigit high | throw hexDigitsError
    let some low := hexDigit low | throw hexDigitsError
    let tail ← decodeHexPairs rest
    pure (((high <<< 4) ||| low) :: tail)
  | _ => pure []

def decodeHex (raw : String) : Except String (List UInt8) :=
  if raw.isEmpty then .error "must not be empty"
  else if (utf8 raw).length % 2 ≠ 0 then
    .error "must contain an even number of lowercase hexadecimal digits"
  else decodeHexPairs (utf8 raw)

namespace OrderKey

def toSnapshotString (key : OrderKey) : String := encodeHex key.digits

def fromSnapshotString (raw : String) : Except String OrderKey := do
  let bytes ← decodeHex raw
  if hne : bytes = [] then throw "must not be empty"
  else if hlast : bytes.getLast? = some minByte then throw "must not end with 00"
  else pure ⟨bytes, hne, hlast⟩

/-- The `Debug` form, which error messages print. -/
def debug (key : OrderKey) : String := "OrderKey(\"" ++ key.toSnapshotString ++ "\")"

end OrderKey

/-- The UTF-8 bytes of a text of one-byte characters are their codes. -/
theorem utf8_ofList {cs : List Char} (h : ∀ c ∈ cs, c.utf8Size = 1) :
    utf8 (String.ofList cs) = cs.map (·.val.toUInt8) := by
  rw [utf8, String.toUTF8_eq_toByteArray, String.toByteArray_ofList, List.utf8Encode,
    List.data_toByteArray, List.toList_toArray]
  induction cs with
  | nil => rfl
  | cons c cs ih =>
    rw [List.flatMap_cons, String.utf8EncodeChar_eq_singleton (h c (List.mem_cons_self ..)),
      ih (fun c hc => h c (List.mem_cons_of_mem _ hc))]
    rfl

/-- The byte of the hexadecimal digit of a nibble. -/
def hexCode (nibble : UInt8) : UInt8 := (hexAlphabet.getD nibble.toNat '0').val.toUInt8

theorem utf8_encodeHex (bytes : List UInt8) :
    utf8 (encodeHex bytes) = bytes.flatMap fun (byte : UInt8) => [hexCode (byte >>> 4), hexCode (byte &&& 0x0f)] := by
  have hascii : ∀ i, (hexAlphabet.getD i '0').utf8Size = 1 := by
    intro i
    by_cases hi : i < 16
    · interval_cases i <;> rfl
    · rw [List.getD_eq_default _ _ (by simp [hexAlphabet]; omega)]
      rfl
  have hmem : ∀ c ∈ bytes.flatMap (fun (byte : UInt8) =>
      [hexAlphabet.getD (byte >>> 4).toNat '0', hexAlphabet.getD (byte &&& 0x0f).toNat '0']),
      c.utf8Size = 1 := by
    intro c hc
    obtain ⟨byte, -, hc⟩ := List.mem_flatMap.mp hc
    rcases List.mem_pair.mp hc with rfl | rfl <;> exact hascii _
  rw [encodeHex, utf8_ofList hmem, List.map_flatMap]
  rfl

/-- Each byte's two digits read back as the byte. -/
theorem hexDigit_hexCode : ∀ byte : UInt8,
    hexDigit (hexCode (byte >>> 4)) = some (byte >>> 4) ∧
      hexDigit (hexCode (byte &&& 0x0f)) = some (byte &&& 0x0f) ∧
      ((byte >>> 4) <<< 4) ||| (byte &&& 0x0f) = byte := by
  decide +kernel

theorem decodeHexPairs_encode (bytes : List UInt8) :
    decodeHexPairs (bytes.flatMap fun (byte : UInt8) => [hexCode (byte >>> 4), hexCode (byte &&& 0x0f)]) =
      .ok bytes := by
  induction bytes with
  | nil => rfl
  | cons byte bytes ih =>
    obtain ⟨hhigh, hlow, hbyte⟩ := hexDigit_hexCode byte
    rw [List.flatMap_cons, List.cons_append, List.cons_append, List.nil_append, decodeHexPairs,
      hhigh, hlow]
    simp only [ih, hbyte]
    rfl

theorem decodeHex_encodeHex {bytes : List UInt8} (hne : bytes ≠ []) :
    decodeHex (encodeHex bytes) = .ok bytes := by
  have hlen : (utf8 (encodeHex bytes)).length = 2 * bytes.length := by
    rw [utf8_encodeHex, List.length_flatMap]
    simp [Nat.mul_comm]
  have hpos : 0 < bytes.length := List.length_pos_iff.mpr hne
  have hempty : (encodeHex bytes).isEmpty = false := by
    rw [Bool.eq_false_iff]
    intro h
    have hnil : utf8 "" = [] := rfl
    rw [String.isEmpty_iff.mp h, hnil, List.length_nil] at hlen
    omega
  rw [decodeHex, hempty, if_neg (by simp), if_neg (by omega), utf8_encodeHex]
  exact decodeHexPairs_encode bytes

/-- A key's snapshot string reads back as the key. -/
@[simp] theorem fromSnapshotString_toSnapshotString (key : OrderKey) :
    OrderKey.fromSnapshotString key.toSnapshotString = .ok key := by
  obtain ⟨digits, hne, hlast⟩ := key
  simp only [OrderKey.fromSnapshotString, OrderKey.toSnapshotString, decodeHex_encodeHex hne]
  simp [hne, hlast, bind, Except.bind, pure, Except.pure]

end Snapshot

section Allocation

/-- `key` lies strictly between two optional bounds; an absent bound is open. -/
def Between (previous next : Option OrderKey) (key : OrderKey) : Prop :=
  (∀ p ∈ previous, p < key) ∧ ∀ n ∈ next, key < n

/-- Bounds in order: when both are given, the previous one is below the next one. -/
def BoundsOrdered (previous next : Option OrderKey) : Prop :=
  ∀ p ∈ previous, ∀ n ∈ next, p < n

namespace OrderKey

def between (previous next : Option OrderKey) : OrderKey :=
  ⟨midpoint (previous.map digits) (next.map digits), valid_midpoint _ _⟩

/-- `fill_evenly`: the middle key first, then the halves on each side of it. The recursion
depth is bounded by `fuel`; `count` is enough. -/
def fillEvenly : ℕ → Option OrderKey → Option OrderKey → ℕ → List OrderKey
  | 0, _, _, _ => []
  | fuel + 1, previous, next, count =>
    if count = 0 then []
    else
      let leftCount := count / 2
      let rightCount := count - leftCount - 1
      let key := between previous next
      fillEvenly fuel previous (some key) leftCount ++ key :: fillEvenly fuel (some key) next rightCount

/-- `evenly_between`. Its `assert!` on out-of-order bounds stops the plugin; here it is an
error with the assertion's message. -/
def evenlyBetween (previous next : Option OrderKey) (count : ℕ) :
    Except String (List OrderKey) :=
  match previous, next with
  | some p, some n =>
    if p = n then
      .error ("order key bounds are equal: previous=" ++ p.debug ++ ", next=" ++ n.debug)
    else if ¬p < n then
      .error ("order key bounds are out of order: previous=" ++ p.debug ++ ", next=" ++ n.debug)
    else if count = 0 then .ok [] else .ok (fillEvenly count previous next count)
  | _, _ => if count = 0 then .ok [] else .ok (fillEvenly count previous next count)

theorem between_spec {previous next : Option OrderKey} (h : BoundsOrdered previous next) :
    Between previous next (between previous next) := by
  constructor
  · intro p hp
    obtain rfl := Option.mem_def.mp hp
    exact compare_midpointLoop_digitPairs_left p.digits _
  · intro n hn
    obtain rfl := Option.mem_def.mp hn
    apply compare_midpointLoop_digitPairs_right _ n.valid
    cases previous with
    | none =>
      obtain ⟨x, xs, hx⟩ := List.exists_cons_of_ne_nil n.valid.1
      simp only [Option.map_none, Option.getD_none, hx, List.compare_nil_cons]
    | some p => exact h p rfl n rfl

/-- A key between the lower bound and a key below the upper bound is between the bounds. -/
theorem Between.of_below {previous next : Option OrderKey} {key x : OrderKey}
    (hx : Between previous (some key) x) (hk : Between previous next key) :
    Between previous next x :=
  ⟨hx.1, fun n hn => lt_trans (hx.2 key rfl) (hk.2 n hn)⟩

theorem Between.of_above {previous next : Option OrderKey} {key x : OrderKey}
    (hx : Between (some key) next x) (hk : Between previous next key) :
    Between previous next x :=
  ⟨fun p hp => lt_trans (hk.1 p hp) (hx.1 key rfl), hx.2⟩

theorem length_fillEvenly {fuel count : ℕ} (hc : count ≤ fuel) (previous next : Option OrderKey) :
    (fillEvenly fuel previous next count).length = count := by
  induction fuel generalizing previous next count with
  | zero =>
    obtain rfl : count = 0 := by omega
    rfl
  | succ fuel ih =>
    rw [fillEvenly]
    split_ifs with h0
    · simp [h0]
    · rw [List.length_append, List.length_cons, ih (by omega), ih (by omega)]
      omega

/-- The keys `fill_evenly` writes increase and lie between its bounds: the middle key splits
the bounds into two ordered pairs, and each half lies on its side of the middle key. -/
theorem fillEvenly_sorted_between (fuel count : ℕ) {previous next : Option OrderKey}
    (h : BoundsOrdered previous next) :
    (fillEvenly fuel previous next count).Pairwise (· < ·) ∧
      ∀ key ∈ fillEvenly fuel previous next count, Between previous next key := by
  induction fuel generalizing previous next count with
  | zero => simp [fillEvenly]
  | succ fuel ih =>
    rw [fillEvenly]
    split_ifs with h0
    · simp
    · have hkey := between_spec h
      have hleft : BoundsOrdered previous (some (between previous next)) :=
        fun p hp n hn => Option.mem_some_iff.mp hn ▸ hkey.1 p hp
      have hright : BoundsOrdered (some (between previous next)) next :=
        fun k hk n hn => Option.mem_some_iff.mp hk ▸ hkey.2 n hn
      obtain ⟨hLs, hLb⟩ := ih (count / 2) hleft
      obtain ⟨hRs, hRb⟩ := ih (count - count / 2 - 1) hright
      refine ⟨List.pairwise_append.mpr ⟨hLs, List.pairwise_cons.mpr
        ⟨fun r hr => (hRb r hr).1 _ rfl, hRs⟩, ?_⟩, ?_⟩
      · intro a ha b hb
        rcases List.mem_cons.mp hb with rfl | hb
        · exact (hLb a ha).2 _ rfl
        · exact lt_trans ((hLb a ha).2 _ rfl) ((hRb b hb).1 _ rfl)
      · intro x hx
        rcases List.mem_append.mp hx with hx | hx
        · exact Between.of_below (hLb x hx) hkey
        · rcases List.mem_cons.mp hx with rfl | hx
          · exact hkey
          · exact Between.of_above (hRb x hx) hkey

/-- With bounds in order, `evenly_between` succeeds with the keys of `fill_evenly`. -/
theorem evenlyBetween_eq_ok {previous next : Option OrderKey} (h : BoundsOrdered previous next)
    (count : ℕ) : evenlyBetween previous next count = .ok (fillEvenly count previous next count) := by
  have hbody : (if count = 0 then .ok [] else .ok (fillEvenly count previous next count) :
      Except String (List OrderKey)) = .ok (fillEvenly count previous next count) := by
    split_ifs with h0
    · subst h0; rfl
    · rfl
  rcases previous with _ | p <;> rcases next with _ | n
  · exact hbody
  · exact hbody
  · exact hbody
  · have hpn : p < n := h p rfl n rfl
    rw [evenlyBetween, if_neg (ne_of_lt hpn), if_neg (not_not.mpr hpn)]
    exact hbody

end OrderKey

end Allocation

end Lix.Text
