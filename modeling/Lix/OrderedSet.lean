import Lix.SortedWalk

/-! An ordered set kept as a strictly increasing list: the part of a B-tree set a graph
walk relies on. Insertion keeps one copy of each key, removal drops it, and the last key
is the greatest, which is what a priority queue popping its maximum needs. Removing
adjacent repeats from a sorted list gives the same set, strictly sorted. -/
namespace Lix

open SortedWalk

/-- A finite set of keys, held increasing and without repeats. -/
structure OrderedSet (κ : Type*) [Ord κ] where
  keys : List κ
  sorted : StrictlySorted id keys

namespace OrderedSet

variable {κ : Type*} [Ord κ]

instance : Membership κ (OrderedSet κ) := ⟨fun s k => k ∈ s.keys⟩

theorem mem_def {s : OrderedSet κ} {k : κ} : k ∈ s ↔ k ∈ s.keys := Iff.rfl

instance [DecidableEq κ] (k : κ) (s : OrderedSet κ) : Decidable (k ∈ s) :=
  inferInstanceAs (Decidable (k ∈ s.keys))

def empty : OrderedSet κ := ⟨[], List.Pairwise.nil⟩

def isEmpty (s : OrderedSet κ) : Bool := s.keys.isEmpty

@[simp] theorem not_mem_empty (k : κ) : k ∉ (empty : OrderedSet κ) := List.not_mem_nil

/-- Insertion into the increasing key list; a key already present is kept once. -/
def insertKey (k : κ) : List κ → List κ
  | [] => [k]
  | x :: xs =>
    match compare k x with
    | .lt => k :: x :: xs
    | .eq => x :: xs
    | .gt => x :: insertKey k xs

theorem mem_insertKey [Std.LawfulEqOrd κ] {k y : κ} (xs : List κ) :
    y ∈ insertKey k xs ↔ y = k ∨ y ∈ xs := by
  induction xs with
  | nil => simp [insertKey]
  | cons x xs ih =>
    unfold insertKey
    cases hkx : compare k x with
    | lt => simp
    | eq =>
      have hk : k = x := Std.LawfulEqOrd.eq_of_compare hkx
      subst hk
      simp
    | gt =>
      rw [List.mem_cons, ih, List.mem_cons]
      tauto

theorem insertKey_sorted [Std.TransOrd κ] [Std.LawfulEqOrd κ] (k : κ) {xs : List κ}
    (h : StrictlySorted id xs) : StrictlySorted id (insertKey k xs) := by
  induction xs with
  | nil => exact List.pairwise_singleton _ _
  | cons x xs ih =>
    unfold insertKey
    cases hkx : compare k x with
    | lt => exact h.cons_of_lt_head hkx
    | eq => exact h
    | gt =>
      have hxk : compare x k = .lt := compare_gt_iff_lt.mp hkx
      refine List.Pairwise.cons ?_ (ih (List.Pairwise.of_cons h))
      intro y hy
      rcases (mem_insertKey xs).mp hy with rfl | hy
      · exact hxk
      · exact List.rel_of_pairwise_cons h hy

section Lawful

variable [Std.TransOrd κ] [Std.LawfulEqOrd κ]

def insert (s : OrderedSet κ) (k : κ) : OrderedSet κ := ⟨insertKey k s.keys, insertKey_sorted k s.sorted⟩

/-- `BTreeSet::from`: the keys of a list, each once. -/
def ofList (ks : List κ) : OrderedSet κ := ks.foldl insert empty

@[simp] theorem mem_insert {s : OrderedSet κ} {k y : κ} : y ∈ s.insert k ↔ y = k ∨ y ∈ s :=
  mem_insertKey s.keys

theorem mem_foldl_insert (ks : List κ) (s : OrderedSet κ) (y : κ) :
    y ∈ ks.foldl insert s ↔ y ∈ s ∨ y ∈ ks := by
  induction ks generalizing s with
  | nil => simp
  | cons k ks ih =>
    rw [List.foldl_cons, ih, mem_insert, List.mem_cons]
    tauto

@[simp] theorem mem_ofList {ks : List κ} {y : κ} : y ∈ ofList ks ↔ y ∈ ks := by
  rw [ofList, mem_foldl_insert]
  simp

end Lawful

section Erase

variable [DecidableEq κ]

def erase (s : OrderedSet κ) (k : κ) : OrderedSet κ :=
  ⟨s.keys.filter (· ≠ k), s.sorted.sublist List.filter_sublist⟩

@[simp] theorem mem_erase {s : OrderedSet κ} {k y : κ} : y ∈ s.erase k ↔ y ≠ k ∧ y ∈ s := by
  rw [mem_def, erase, List.mem_filter, decide_eq_true_iff, and_comm]
  rfl

end Erase

theorem isEmpty_iff {s : OrderedSet κ} : s.isEmpty = true ↔ ∀ k, k ∉ s := by
  rw [isEmpty, List.isEmpty_iff, List.eq_nil_iff_forall_not_mem]
  rfl

/-- `BTreeSet::pop_last`: the greatest key and the set without it. -/
def popLast (s : OrderedSet κ) : Option (κ × OrderedSet κ) :=
  s.keys.getLast?.map fun k => (k, ⟨s.keys.dropLast, s.sorted.sublist (List.dropLast_sublist _)⟩)

theorem popLast_eq_none_iff {s : OrderedSet κ} : s.popLast = none ↔ ∀ k, k ∉ s := by
  rw [popLast, Option.map_eq_none_iff, List.getLast?_eq_none_iff, List.eq_nil_iff_forall_not_mem]
  rfl

/-- The popped key is present and above every other key; the rest is the set without it. -/
theorem popLast_eq_some [Std.ReflOrd κ] {s t : OrderedSet κ} {k : κ}
    (h : s.popLast = some (k, t)) :
    k ∈ s ∧ (∀ y ∈ s, y ≠ k → compare y k = .lt) ∧ ∀ y, y ∈ t ↔ y ∈ s ∧ y ≠ k := by
  rw [popLast, Option.map_eq_some_iff] at h
  obtain ⟨last, hlast, hpair⟩ := h
  cases hpair
  have hsplit : s.keys.dropLast ++ [k] = s.keys := List.dropLast_append_getLast? k hlast
  have hbelow : ∀ y ∈ s.keys.dropLast, compare y k = .lt := by
    have hs := s.sorted
    rw [← hsplit, StrictlySorted, List.pairwise_append] at hs
    exact fun y hy => hs.2.2 y hy k (List.mem_singleton_self k)
  have hmem : ∀ y, y ∈ s ↔ y ∈ s.keys.dropLast ∨ y = k := by
    intro y
    have hy : y ∈ s.keys.dropLast ++ [k] ↔ y ∈ s.keys := by rw [hsplit]
    rw [mem_def, ← hy, List.mem_append, List.mem_singleton]
  refine ⟨(hmem k).mpr (Or.inr rfl), ?_, ?_⟩
  · intro y hy hne
    exact hbelow y (((hmem y).mp hy).resolve_right hne)
  · intro y
    constructor
    · intro hy
      exact ⟨(hmem y).mpr (Or.inl hy), ne_of_compare_lt (hbelow y hy)⟩
    · rintro ⟨hy, hne⟩
      exact ((hmem y).mp hy).resolve_right hne

end OrderedSet

section Runs

variable {α : Type*} [DecidableEq α]

/-- `Vec::dedup`: drop each element equal to the one before it. -/
def dedupAdjacent : List α → List α
  | a :: b :: rest => if a = b then dedupAdjacent (b :: rest) else a :: dedupAdjacent (b :: rest)
  | xs => xs

theorem mem_dedupAdjacent {y : α} (xs : List α) : y ∈ dedupAdjacent xs ↔ y ∈ xs := by
  fun_induction dedupAdjacent xs with
  | case1 a rest ih =>
    rw [ih]
    simp
  | case2 a b rest hab ih => simp [ih]
  | case3 xs hshort => rfl

variable {κ : Type*} [Ord κ]

/-- Dropping adjacent repeats turns a list sorted by `isLE` into a strictly sorted one. -/
theorem dedupAdjacent_strictlySorted [DecidableEq κ] [Std.TransOrd κ] [Std.LawfulEqOrd κ] {xs : List κ}
    (h : xs.Pairwise fun a b => (compare a b).isLE) : StrictlySorted id (dedupAdjacent xs) := by
  fun_induction dedupAdjacent xs with
  | case1 a rest ih => exact ih (List.Pairwise.of_cons h)
  | case2 a b rest hab ih =>
    refine List.Pairwise.cons ?_ (ih (List.Pairwise.of_cons h))
    intro y hy
    have hab' : compare a b = .lt := by
      have hle : (compare a b).isLE := List.rel_of_pairwise_cons h List.mem_cons_self
      cases hcmp : compare a b with
      | lt => rfl
      | eq => exact absurd (Std.LawfulEqOrd.eq_of_compare hcmp) hab
      | gt => rw [hcmp] at hle; cases hle
    rcases List.mem_cons.mp ((mem_dedupAdjacent _).mp hy) with rfl | hy'
    · exact hab'
    · exact Std.TransCmp.lt_of_lt_of_isLE hab'
        (List.rel_of_pairwise_cons (List.Pairwise.of_cons h) hy')
  | case3 xs hshort =>
    rcases xs with _ | ⟨a, _ | ⟨b, rest⟩⟩
    · exact List.Pairwise.nil
    · exact List.pairwise_singleton _ _
    · exact absurd rfl (hshort a b rest)

end Runs

end Lix
