import Mathlib

/-! A merge join: two sequences sorted strictly by a key, walked in step. Every key is
seen once, as present on the left only, on the right only, or on both sides; read from
the events, the right-only entries and the matched pairs are plain filters of the right
input. Sorting by key is the normal form that makes the walk independent of the input
order. -/
namespace Lix.SortedWalk

/-- What a merge join reports at one key. -/
inductive Step (α β : Type*) where
  | left (a : α)
  | right (b : β)
  | both (a : α) (b : β)
  deriving DecidableEq, Repr

namespace Step

variable {α β : Type*}

def getRight? : Step α β → Option β
  | right b => some b
  | _ => none

def getBoth? : Step α β → Option (α × β)
  | both a b => some (a, b)
  | _ => none

@[simp] theorem getRight?_left (a : α) : (left a : Step α β).getRight? = none := rfl
@[simp] theorem getRight?_right (b : β) : (right b : Step α β).getRight? = some b := rfl
@[simp] theorem getRight?_both (a : α) (b : β) : (both a b).getRight? = none := rfl
@[simp] theorem getBoth?_left (a : α) : (left a : Step α β).getBoth? = none := rfl
@[simp] theorem getBoth?_right (b : β) : (right b : Step α β).getBoth? = none := rfl
@[simp] theorem getBoth?_both (a : α) (b : β) : (both a b).getBoth? = some (a, b) := rfl

end Step

section Order

variable {κ : Type*} [Ord κ]

/-- `xs` is strictly increasing under the key `k`. -/
def StrictlySorted {α : Type*} (k : α → κ) (xs : List α) : Prop :=
  xs.Pairwise (fun a b => compare (k a) (k b) = .lt)

theorem ne_of_compare_lt [Std.ReflOrd κ] {a b : κ} (h : compare a b = .lt) : a ≠ b := by
  rintro rfl
  rw [Std.ReflOrd.compare_self] at h
  cases h

/-- A key below the head of a strictly sorted list is below, hence missing from, the rest. -/
theorem key_ne_of_lt_head [Std.TransOrd κ] [Std.ReflOrd κ] {α : Type*} {k : α → κ} {x : κ} {y : α} {ys : List α}
    (hs : StrictlySorted k (y :: ys)) (hxy : compare x (k y) = .lt) :
    ∀ z ∈ y :: ys, k z ≠ x := by
  intro z hz
  rcases List.mem_cons.mp hz with rfl | hz
  · exact (ne_of_compare_lt hxy).symm
  · have hyz : compare (k y) (k z) = .lt := List.rel_of_pairwise_cons hs hz
    exact (ne_of_compare_lt (Std.TransCmp.lt_trans hxy hyz)).symm

theorem compare_gt_iff_lt [Std.OrientedOrd κ] {a b : κ} : compare a b = .gt ↔ compare b a = .lt := by
  rw [Std.OrientedOrd.eq_swap]
  cases compare b a <;> simp

theorem StrictlySorted.cons_of_lt_head [Std.TransOrd κ] {α : Type*} {k : α → κ} {x y : α}
    {ys : List α} (hs : StrictlySorted k (y :: ys)) (hxy : compare (k x) (k y) = .lt) :
    StrictlySorted k (x :: y :: ys) := by
  apply List.Pairwise.cons _ hs
  intro z hz
  rcases List.mem_cons.mp hz with rfl | hz
  · exact hxy
  · exact Std.TransCmp.lt_trans hxy (List.rel_of_pairwise_cons hs hz)

theorem StrictlySorted.nodup [Std.ReflOrd κ] {α : Type*} {k : α → κ} {xs : List α} (h : StrictlySorted k xs) :
    (xs.map k).Nodup := by
  rw [List.nodup_iff_pairwise_ne, List.pairwise_map]
  exact h.imp ne_of_compare_lt

end Order

section Walk

variable {κ α β : Type*} [Ord κ]

/-- The merge join itself: advance the side with the smaller key, both on a tie. -/
def walk (ka : α → κ) (kb : β → κ) : List α → List β → List (Step α β)
  | [], ys => ys.map .right
  | x :: xs, [] => (x :: xs).map .left
  | x :: xs, y :: ys =>
    match compare (ka x) (kb y) with
    | .lt => .left x :: walk ka kb xs (y :: ys)
    | .gt => .right y :: walk ka kb (x :: xs) ys
    | .eq => .both x y :: walk ka kb xs ys
termination_by xs ys => xs.length + ys.length

variable (ka : α → κ) (kb : β → κ)

theorem walk_lt {x : α} {y : β} (xs : List α) (ys : List β) (h : compare (ka x) (kb y) = .lt) :
    walk ka kb (x :: xs) (y :: ys) = .left x :: walk ka kb xs (y :: ys) := by
  rw [walk, h]

theorem walk_gt {x : α} {y : β} (xs : List α) (ys : List β) (h : compare (ka x) (kb y) = .gt) :
    walk ka kb (x :: xs) (y :: ys) = .right y :: walk ka kb (x :: xs) ys := by
  rw [walk, h]

theorem walk_eq {x : α} {y : β} (xs : List α) (ys : List β) (h : compare (ka x) (kb y) = .eq) :
    walk ka kb (x :: xs) (y :: ys) = .both x y :: walk ka kb xs ys := by
  rw [walk, h]

theorem walk_nil_left (ys : List β) : walk ka kb [] ys = ys.map .right := by
  rw [walk]

theorem walk_nil_right (x : α) (xs : List α) :
    walk ka kb (x :: xs) ([] : List β) = (x :: xs).map .left := by
  rw [walk]

theorem rights_walk_nil_right (xs : List α) :
    (walk ka kb xs ([] : List β)).filterMap Step.getRight? = [] := by
  cases xs <;> simp [walk, Step.getRight?]

theorem boths_walk_nil_right (xs : List α) :
    (walk ka kb xs ([] : List β)).filterMap Step.getBoth? = [] := by
  cases xs <;> simp [walk, Step.getBoth?]

variable [DecidableEq κ] [Std.TransOrd κ] [Std.LawfulEqOrd κ]

/-- The right-only events of the walk are the right entries whose key the left lacks. -/
theorem rights_walk {xs : List α} {ys : List β} (hx : StrictlySorted ka xs)
    (hy : StrictlySorted kb ys) :
    (walk ka kb xs ys).filterMap Step.getRight? = ys.filter (fun y => kb y ∉ xs.map ka) := by
  induction xs, ys using walk.induct ka kb with
  | case1 ys => simp [walk, List.filterMap_map, Function.comp_def]
  | case2 x xs => rw [rights_walk_nil_right, List.filter_nil]
  | case3 x xs y ys hc ih =>
    have hne := key_ne_of_lt_head hy hc
    rw [walk_lt ka kb xs ys hc, List.filterMap_cons, Step.getRight?_left, ih hx.of_cons hy]
    apply List.filter_congr
    intro z hz
    simp [hne z hz]
  | case4 x xs y ys hc ih =>
    have hne := key_ne_of_lt_head hx (compare_gt_iff_lt.mp hc)
    have hy' : kb y ∉ (x :: xs).map ka := by
      simp only [List.mem_map, not_exists, not_and]
      exact hne
    rw [walk_gt ka kb xs ys hc, List.filterMap_cons, Step.getRight?_right, ih hx hy.of_cons,
      List.filter_cons_of_pos (by simpa using hy')]
  | case5 x xs y ys hc ih =>
    have hxy : ka x = kb y := Std.LawfulEqOrd.eq_of_compare hc
    rw [walk_eq ka kb xs ys hc, List.filterMap_cons, Step.getRight?_both, ih hx.of_cons hy.of_cons,
      List.filter_cons_of_neg (by simp [hxy])]
    apply List.filter_congr
    intro z hz
    have hz' : kb z ≠ ka x := by
      rw [hxy]
      exact (ne_of_compare_lt (List.rel_of_pairwise_cons hy hz)).symm
    simp [hz']

/-- The matched pairs of the walk, in the order of the right input. -/
theorem boths_walk {xs : List α} {ys : List β} (hx : StrictlySorted ka xs)
    (hy : StrictlySorted kb ys) :
    (walk ka kb xs ys).filterMap Step.getBoth? =
      ys.filterMap (fun y => (xs.find? (fun x => ka x = kb y)).map (·, y)) := by
  induction xs, ys using walk.induct ka kb with
  | case1 ys => simp [walk, List.filterMap_map, Function.comp_def]
  | case2 x xs => rw [boths_walk_nil_right, List.filterMap_nil]
  | case3 x xs y ys hc ih =>
    have hne := key_ne_of_lt_head hy hc
    rw [walk_lt ka kb xs ys hc, List.filterMap_cons, Step.getBoth?_left, ih hx.of_cons hy]
    apply List.filterMap_congr
    intro z hz
    rw [List.find?_cons_of_neg (by simpa using (hne z hz).symm)]
  | case4 x xs y ys hc ih =>
    have hne := key_ne_of_lt_head hx (compare_gt_iff_lt.mp hc)
    have hfind : (x :: xs).find? (fun x => ka x = kb y) = none := by
      rw [List.find?_eq_none]
      intro z hz
      simpa using hne z hz
    rw [walk_gt ka kb xs ys hc, List.filterMap_cons, Step.getBoth?_right, ih hx hy.of_cons,
      List.filterMap_cons, hfind, Option.map_none]
  | case5 x xs y ys hc ih =>
    have hxy : ka x = kb y := Std.LawfulEqOrd.eq_of_compare hc
    rw [walk_eq ka kb xs ys hc, List.filterMap_cons, Step.getBoth?_both, ih hx.of_cons hy.of_cons,
      List.filterMap_cons, List.find?_cons_of_pos (by simpa using hxy), Option.map_some]
    dsimp only
    congr 1
    apply List.filterMap_congr
    intro z hz
    have hz' : ka x ≠ kb z := by
      rw [hxy]
      exact ne_of_compare_lt (List.rel_of_pairwise_cons hy hz)
    rw [List.find?_cons_of_neg (by simpa using hz')]

end Walk

section Sorting

variable {κ α : Type*} [Ord κ]

/-- Sorting by a key with the standard library's merge sort. -/
def sortByKey (k : α → κ) (xs : List α) : List α :=
  xs.mergeSort (fun a b => (compare (k a) (k b)).isLE)

variable (k : α → κ)

theorem sortByKey_perm (xs : List α) : (sortByKey k xs).Perm xs := List.mergeSort_perm _ _

@[simp] theorem length_sortByKey (xs : List α) : (sortByKey k xs).length = xs.length :=
  List.length_mergeSort _

theorem nodup_map_sortByKey_iff {β : Type*} (f : α → β) (xs : List α) :
    ((sortByKey k xs).map f).Nodup ↔ (xs.map f).Nodup :=
  ((sortByKey_perm k xs).map f).nodup_iff

theorem sortByKey_of_strictlySorted {xs : List α} (h : StrictlySorted k xs) :
    sortByKey k xs = xs := by
  apply List.mergeSort_of_pairwise
  apply h.imp
  intro a b hab
  rw [hab]
  rfl

theorem pairwise_isLE_sortByKey [Std.TransOrd κ] (xs : List α) :
    (sortByKey k xs).Pairwise (fun a b => (compare (k a) (k b)).isLE) := by
  apply List.pairwise_mergeSort
  · intro a b c hab hbc
    exact Std.TransOrd.isLE_trans hab hbc
  · intro a b
    rw [Std.OrientedOrd.eq_swap (a := k b)]
    cases compare (k a) (k b) <;> simp

variable [Std.TransOrd κ] [Std.LawfulEqOrd κ]

/-- With distinct keys, sorting by key gives a strictly increasing list. -/
theorem strictlySorted_sortByKey {xs : List α} (h : (xs.map k).Nodup) :
    StrictlySorted k (sortByKey k xs) := by
  have hnd : ((sortByKey k xs).map k).Nodup := ((sortByKey_perm k xs).map k).nodup_iff.mpr h
  rw [List.nodup_iff_pairwise_ne, List.pairwise_map] at hnd
  apply ((pairwise_isLE_sortByKey k xs).and hnd).imp
  rintro a b ⟨hle, hne⟩
  cases hc : compare (k a) (k b) with
  | lt => rfl
  | eq => exact absurd (Std.LawfulEqOrd.eq_of_compare hc) hne
  | gt =>
    rw [hc] at hle
    cases hle

omit [Ord κ] [Std.TransOrd κ] [Std.LawfulEqOrd κ] in
/-- With distinct keys, looking an entry up by key does not depend on the order. -/
theorem find?_key_eq_of_perm [DecidableEq κ] {xs ys : List α} (hp : xs.Perm ys)
    (h : (xs.map k).Nodup) (x : κ) :
    xs.find? (fun a => k a = x) = ys.find? (fun a => k a = x) := by
  cases hx : xs.find? (fun a => k a = x) with
  | none =>
    symm
    rw [List.find?_eq_none] at hx ⊢
    exact fun a ha => hx a (hp.mem_iff.mpr ha)
  | some a =>
    have ha := List.mem_of_find?_eq_some hx
    have hka : k a = x := by simpa using List.find?_some hx
    obtain ⟨b, hb⟩ : ∃ b, ys.find? (fun a => k a = x) = some b := by
      rw [← Option.isSome_iff_exists, List.find?_isSome]
      exact ⟨a, hp.mem_iff.mp ha, by simpa using hka⟩
    have hkb : k b = x := by simpa using List.find?_some hb
    have hbx : b ∈ xs := hp.mem_iff.mpr (List.mem_of_find?_eq_some hb)
    rw [hb, List.inj_on_of_nodup_map h ha hbx (hka.trans hkb.symm)]

/-- Two orders of the same entries with distinct keys sort to the same list. -/
theorem sortByKey_eq_of_perm {xs ys : List α} (hp : xs.Perm ys) (h : (xs.map k).Nodup) :
    sortByKey k xs = sortByKey k ys := by
  have hy : (ys.map k).Nodup := (hp.map k).nodup_iff.mp h
  apply List.Perm.eq_of_pairwise _ (strictlySorted_sortByKey k h) (strictlySorted_sortByKey k hy)
  · exact (sortByKey_perm k xs).trans (hp.trans (sortByKey_perm k ys).symm)
  · intro a b _ _ hab hba
    rw [Std.OrientedOrd.eq_swap, hba] at hab
    cases hab

/-- A strictly sorted list is determined by its members. -/
theorem StrictlySorted.eq_of_mem_iff {xs ys : List α} (hx : StrictlySorted k xs)
    (hy : StrictlySorted k ys) (h : ∀ a, a ∈ xs ↔ a ∈ ys) : xs = ys := by
  have hpx : xs.Nodup := List.Nodup.of_map k hx.nodup
  have hpy : ys.Nodup := List.Nodup.of_map k hy.nodup
  apply List.Perm.eq_of_pairwise _ hx hy ((List.perm_ext_iff_of_nodup hpx hpy).mpr h)
  intro a b _ _ hab hba
  rw [Std.OrientedOrd.eq_swap, hba] at hab
  cases hab

end Sorting

end Lix.SortedWalk
