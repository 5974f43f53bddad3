import Mathlib

/-! Lexicographic comparison of lists through `compare`: how it distributes over
common prefixes and equal-width blocks, and why big-endian digit strings of a
fixed width compare like the numbers they spell. -/
namespace Lix.LexCompare

section Lists

variable {α : Type*} [Ord α]

theorem compare_cons_left [Std.ReflOrd α] (x : α) (xs ys : List α) :
    compare (x :: xs) (x :: ys) = compare xs ys := by
  rw [List.compare_cons_cons, Std.ReflOrd.compare_self, Ordering.eq_then]

theorem compare_append_left [Std.ReflOrd α] (p xs ys : List α) :
    compare (p ++ xs) (p ++ ys) = compare xs ys := by
  induction p with
  | nil => rfl
  | cons a p ih => simp [Std.ReflOrd.compare_self, ih]

/-- Blocks of equal width are compared first, the rest only when they agree. -/
theorem compare_append_of_length_eq {xs ys : List α} (a b : List α)
    (h : xs.length = ys.length) :
    compare (xs ++ a) (ys ++ b) = (compare xs ys).then (compare a b) := by
  induction xs generalizing ys with
  | nil =>
    cases ys with
    | nil => rfl
    | cons y ys => simp at h
  | cons x xs ih =>
    cases ys with
    | nil => simp at h
    | cons y ys =>
      simp only [List.cons_append, List.compare_cons_cons, List.length_cons,
        Nat.add_right_cancel_iff] at h ⊢
      rw [ih h, Ordering.then_assoc]

theorem compare_cons_of_ne [Std.LawfulEqOrd α] {x y : α} (xs ys : List α) (h : x ≠ y) :
    compare (x :: xs) (y :: ys) = compare x y := by
  have hne : compare x y ≠ .eq := fun he => h (Std.LawfulEqOrd.eq_of_compare he)
  rw [List.compare_cons_cons]
  cases hc : compare x y <;> simp_all

theorem compare_eq_iff [Std.LawfulEqOrd α] {xs ys : List α} :
    compare xs ys = .eq ↔ xs = ys :=
  ⟨Std.LawfulEqOrd.eq_of_compare, fun h => h ▸ Std.ReflOrd.compare_self⟩

end Lists

theorem then_of_ne_eq {o : Ordering} (h : o ≠ .eq) (p : Ordering) : o.then p = o := by
  cases o <;> simp_all

theorem compare_uint8 (x y : UInt8) : compare x y = compare x.toNat y.toNat := by
  simp only [compare, compareOfLessAndEq, UInt8.lt_iff_toNat_lt, UInt8.toNat_inj]

theorem compare_nat_of_lt {m n : ℕ} (h : m < n) : compare m n = .lt := Nat.compare_eq_lt.mpr h

theorem compare_nat_of_gt {m n : ℕ} (h : n < m) : compare m n = .gt := Nat.compare_eq_gt.mpr h

/-- Ordering on quotient then remainder is the ordering of the numbers. -/
theorem compare_div_mod (d m n : ℕ) :
    (compare (m / d) (n / d)).then (compare (m % d) (n % d)) = compare m n := by
  rcases lt_trichotomy (m / d) (n / d) with hq | hq | hq
  · have hmn : m < n := by
      by_contra hc
      exact absurd (Nat.div_le_div_right (c := d) (not_lt.mp hc)) (not_le.mpr hq)
    rw [compare_nat_of_lt hq, compare_nat_of_lt hmn, Ordering.lt_then]
  · rw [hq, Std.ReflOrd.compare_self, Ordering.eq_then]
    rcases lt_trichotomy (m % d) (n % d) with hr | hr | hr
    · rw [compare_nat_of_lt hr, compare_nat_of_lt (by
        rw [← Nat.div_add_mod m d, ← Nat.div_add_mod n d, hq]; omega)]
    · have hmn : m = n := by rw [← Nat.div_add_mod m d, ← Nat.div_add_mod n d, hq, hr]
      rw [hr, hmn, Std.ReflOrd.compare_self, Std.ReflOrd.compare_self]
    · rw [compare_nat_of_gt hr, compare_nat_of_gt (by
        rw [← Nat.div_add_mod m d, ← Nat.div_add_mod n d, hq]; omega)]
  · have hmn : n < m := by
      by_contra hc
      exact absurd (Nat.div_le_div_right (c := d) (not_lt.mp hc)) (not_le.mpr hq)
    rw [compare_nat_of_gt hq, compare_nat_of_gt hmn, Ordering.gt_then]

section BigEndian

/-- The `k` base-256 digits of `n`, most significant first. -/
def beBytes : ℕ → ℕ → List UInt8
  | 0, _ => []
  | k + 1, n => (n / 256 ^ k % 256).toUInt8 :: beBytes k n

/-- Reads base-256 digits, most significant first. -/
def fromBeBytes (bs : List UInt8) : ℕ := bs.foldl (fun acc b => acc * 256 + b.toNat) 0

@[simp] theorem length_beBytes (k n : ℕ) : (beBytes k n).length = k := by
  induction k with
  | zero => rfl
  | succ k ih => simp [beBytes, ih]

theorem beBytes_mod (k n : ℕ) : beBytes k (n % 256 ^ k) = beBytes k n := by
  induction k generalizing n with
  | zero => rfl
  | succ k ih =>
    have hd : n % 256 ^ (k + 1) / 256 ^ k % 256 = n / 256 ^ k % 256 := by
      rw [Nat.pow_succ, Nat.mod_mul_right_div_self, Nat.mod_mod]
    have hr : beBytes k (n % 256 ^ (k + 1)) = beBytes k n := by
      rw [← ih (n % 256 ^ (k + 1)), Nat.mod_mod_of_dvd _ (Nat.pow_dvd_pow 256 (Nat.le_succ k)),
        ih]
    simp only [beBytes, hd, hr]

private theorem fromBeBytes_aux (acc : ℕ) (bs : List UInt8) :
    bs.foldl (fun acc b => acc * 256 + b.toNat) acc = acc * 256 ^ bs.length + fromBeBytes bs := by
  induction bs generalizing acc with
  | nil => simp [fromBeBytes]
  | cons b bs ih =>
    simp only [fromBeBytes, List.foldl_cons, List.length_cons] at ih ⊢
    rw [ih, ih (0 * 256 + b.toNat), Nat.pow_succ]
    ring

theorem fromBeBytes_cons (b : UInt8) (bs : List UInt8) :
    fromBeBytes (b :: bs) = b.toNat * 256 ^ bs.length + fromBeBytes bs := by
  simp only [fromBeBytes, List.foldl_cons]
  rw [fromBeBytes_aux]
  simp [fromBeBytes]

theorem fromBeBytes_beBytes (k n : ℕ) : fromBeBytes (beBytes k n) = n % 256 ^ k := by
  induction k with
  | zero => simp [beBytes, fromBeBytes, Nat.mod_one]
  | succ k ih =>
    have hd : (n / 256 ^ k % 256).toUInt8.toNat = n / 256 ^ k % 256 := by
      simp [Nat.toUInt8]
    rw [beBytes, fromBeBytes_cons, hd, length_beBytes, ih, Nat.pow_succ, Nat.mod_mul]
    ring

theorem toNat_digit (k n : ℕ) : (n / 256 ^ k % 256).toUInt8.toNat = n / 256 ^ k % 256 := by
  simp [Nat.toUInt8]

/-- Fixed-width big-endian digit strings compare like the numbers they encode. -/
theorem compare_beBytes {k m n : ℕ} (hm : m < 256 ^ k) (hn : n < 256 ^ k) :
    compare (beBytes k m) (beBytes k n) = compare m n := by
  induction k generalizing m n with
  | zero =>
    obtain rfl : m = 0 := by simpa using hm
    obtain rfl : n = 0 := by simpa using hn
    rfl
  | succ k ih =>
    have hpos : 0 < 256 ^ k := by positivity
    have hqm : m / 256 ^ k < 256 := Nat.div_lt_of_lt_mul (by rwa [← Nat.pow_succ])
    have hqn : n / 256 ^ k < 256 := Nat.div_lt_of_lt_mul (by rwa [← Nat.pow_succ])
    rw [beBytes, beBytes, List.compare_cons_cons, compare_uint8, toNat_digit, toNat_digit,
      Nat.mod_eq_of_lt hqm, Nat.mod_eq_of_lt hqn, ← beBytes_mod k m, ← beBytes_mod k n,
      ih (Nat.mod_lt _ hpos) (Nat.mod_lt _ hpos)]
    exact compare_div_mod _ m n

theorem fromBeBytes_beBytes_of_lt {k n : ℕ} (h : n < 256 ^ k) : fromBeBytes (beBytes k n) = n := by
  rw [fromBeBytes_beBytes, Nat.mod_eq_of_lt h]

/-- The low `w` digits come last, after the digits above them. -/
theorem beBytes_add (j w n : ℕ) : beBytes (j + w) n = beBytes j (n / 256 ^ w) ++ beBytes w n := by
  induction j with
  | zero => simp [beBytes]
  | succ j ih =>
    rw [Nat.succ_add, beBytes, ih, beBytes, Nat.div_div_eq_div_mul, ← Nat.pow_add, Nat.add_comm w j]
    rfl

/-- Leading zero digits do not count. -/
theorem fromBeBytes_replicate_append (z : ℕ) (bs : List UInt8) :
    fromBeBytes (List.replicate z 0 ++ bs) = fromBeBytes bs := by
  induction z with
  | zero => rfl
  | succ z ih => rw [List.replicate_succ, List.cons_append, fromBeBytes_cons, ih]; simp

theorem fromBeBytes_lt (bs : List UInt8) : fromBeBytes bs < 256 ^ bs.length := by
  induction bs with
  | nil => simp [fromBeBytes]
  | cons b bs ih =>
    rw [fromBeBytes_cons, List.length_cons, Nat.pow_succ]
    have hb : b.toNat ≤ 255 := by have := b.toNat_lt; omega
    have := Nat.mul_le_mul_right (256 ^ bs.length) hb
    omega

/-- A digit string is the digits of its value. -/
theorem beBytes_fromBeBytes (bs : List UInt8) : beBytes bs.length (fromBeBytes bs) = bs := by
  induction bs with
  | nil => rfl
  | cons b bs ih =>
    have hrest := fromBeBytes_lt bs
    have hpos : 0 < 256 ^ bs.length := by positivity
    have hdigit : (b.toNat * 256 ^ bs.length + fromBeBytes bs) / 256 ^ bs.length % 256 = b.toNat := by
      rw [Nat.mul_comm, Nat.mul_add_div hpos, Nat.div_eq_of_lt hrest, Nat.add_zero,
        Nat.mod_eq_of_lt b.toNat_lt]
    have hlow : beBytes bs.length (b.toNat * 256 ^ bs.length + fromBeBytes bs) = bs := by
      rw [← beBytes_mod, Nat.mul_comm, Nat.mul_add_mod, Nat.mod_eq_of_lt hrest, ih]
    rw [List.length_cons, beBytes, fromBeBytes_cons, hdigit, hlow]
    simp

/-- A digit string whose first digit is not zero spells at least the smallest number of its
length. -/
theorem le_fromBeBytes_cons {b : UInt8} (hb : b ≠ 0) (bs : List UInt8) :
    256 ^ bs.length ≤ fromBeBytes (b :: bs) := by
  rw [fromBeBytes_cons]
  have : 1 ≤ b.toNat := by
    rcases Nat.eq_zero_or_pos b.toNat with h | h
    · exact absurd (UInt8.toNat_inj.mp (by simpa using h)) hb
    · exact h
  have := Nat.mul_le_mul_right (256 ^ bs.length) this
  omega

end BigEndian

end Lix.LexCompare
