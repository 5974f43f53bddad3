import Lix.Ancestry

/-! Breadth-first layers of a graph given by parent links. `ReachIn parents n a b` says that
`n` links lead from `a` to `b`, and `Nearest parents a b n` that `n` is the fewest. The nearest
layer `n + 1` is what the layer `n` reaches in one link and nothing within `n` links reaches:
exactly what a walk that keeps a set of seen nodes puts in its next frontier. Once a layer is
empty every later one is, and every ancestor sits in exactly one layer. -/
namespace Lix.LayeredSearch
open Ancestry

variable {ι : Type*} (parents : ι → List ι)

/-- `b` is reached from `a` by exactly `n` parent links. -/
def ReachIn : ℕ → ι → ι → Prop
  | 0, a, b => b = a
  | n + 1, a, b => ∃ c, ReachIn n a c ∧ b ∈ parents c

/-- `b` is reached from `a` by at most `n` parent links. -/
def ReachWithin (n : ℕ) (a b : ι) : Prop := ∃ m ≤ n, ReachIn parents m a b

/-- The fewest parent links that lead from `a` to `b` are `n`. -/
def Nearest (a b : ι) (n : ℕ) : Prop := ReachIn parents n a b ∧ ¬∃ m < n, ReachIn parents m a b

variable {parents}

@[simp] theorem reachIn_zero {a b : ι} : ReachIn parents 0 a b ↔ b = a := Iff.rfl

theorem ancestor_iff_exists_reachIn {a b : ι} :
    Ancestor parents a b ↔ ∃ n, ReachIn parents n a b := by
  constructor
  · intro h
    induction h with
    | refl => exact ⟨0, rfl⟩
    | tail _ hcd ih =>
      obtain ⟨n, hn⟩ := ih
      exact ⟨n + 1, _, hn, hcd⟩
  · rintro ⟨n, hn⟩
    induction n generalizing b with
    | zero =>
      rw [reachIn_zero.mp hn]
    | succ n ih =>
      obtain ⟨c, hc, hbc⟩ := hn
      exact (ih hc).tail hbc

theorem ReachIn.ancestor {n : ℕ} {a b : ι} (h : ReachIn parents n a b) : Ancestor parents a b :=
  ancestor_iff_exists_reachIn.mpr ⟨n, h⟩

theorem Nearest.ancestor {n : ℕ} {a b : ι} (h : Nearest parents a b n) : Ancestor parents a b :=
  h.1.ancestor

theorem Nearest.reachWithin {n : ℕ} {a b : ι} (h : Nearest parents a b n) :
    ReachWithin parents n a b :=
  ⟨n, le_rfl, h.1⟩

/-- A node sits in one layer only. -/
theorem Nearest.unique {a b : ι} {n m : ℕ} (hn : Nearest parents a b n)
    (hm : Nearest parents a b m) : n = m := by
  by_contra hne
  rcases Nat.lt_or_gt_of_ne hne with hlt | hlt
  · exact hm.2 ⟨n, hlt, hn.1⟩
  · exact hn.2 ⟨m, hlt, hm.1⟩

/-- Every ancestor sits in some layer. -/
theorem exists_nearest {a b : ι} (h : Ancestor parents a b) : ∃ n, Nearest parents a b n := by
  classical
  have hex := ancestor_iff_exists_reachIn.mp h
  exact ⟨Nat.find hex, Nat.find_spec hex, fun ⟨m, hm, hrm⟩ => Nat.find_min hex hm hrm⟩

@[simp] theorem nearest_zero_iff {a b : ι} : Nearest parents a b 0 ↔ b = a := by
  simp [Nearest]

@[simp] theorem reachWithin_zero_iff {a b : ι} : ReachWithin parents 0 a b ↔ b = a := by
  simp [ReachWithin]

/-- Within `n + 1` links is within `n` links or in the layer `n + 1`. -/
theorem reachWithin_succ_iff {n : ℕ} {a b : ι} :
    ReachWithin parents (n + 1) a b ↔ ReachWithin parents n a b ∨ Nearest parents a b (n + 1) := by
  constructor
  · rintro ⟨m, hm, hrm⟩
    by_cases hw : ReachWithin parents n a b
    · exact Or.inl hw
    · obtain rfl : m = n + 1 := by
        by_contra hne
        exact hw ⟨m, by omega, hrm⟩
      exact Or.inr ⟨hrm, fun ⟨k, hk, hrk⟩ => hw ⟨k, by omega, hrk⟩⟩
  · rintro (⟨m, hm, hrm⟩ | hnear)
    · exact ⟨m, by omega, hrm⟩
    · exact hnear.reachWithin

/-- The layer `n + 1`: one link from the layer `n`, and not within `n` links. -/
theorem nearest_succ_iff {n : ℕ} {a b : ι} :
    Nearest parents a b (n + 1) ↔
      (∃ c, Nearest parents a c n ∧ b ∈ parents c) ∧ ¬ReachWithin parents n a b := by
  constructor
  · rintro ⟨⟨c, hc, hbc⟩, hmin⟩
    refine ⟨⟨c, ⟨hc, ?_⟩, hbc⟩, ?_⟩
    · -- a shorter path to `c` would be a shorter path to `b`
      rintro ⟨m, hm, hrm⟩
      exact hmin ⟨m + 1, by omega, c, hrm, hbc⟩
    · rintro ⟨m, hm, hrm⟩
      exact hmin ⟨m, by omega, hrm⟩
  · rintro ⟨⟨c, hc, hbc⟩, hnot⟩
    exact ⟨⟨c, hc.1, hbc⟩, fun ⟨m, hm, hrm⟩ => hnot ⟨m, by omega, hrm⟩⟩

/-- After an empty layer every later layer is empty. -/
theorem not_nearest_of_le {n m : ℕ} {a : ι} (hempty : ∀ b, ¬Nearest parents a b n) (hnm : n ≤ m)
    (b : ι) : ¬Nearest parents a b m := by
  induction m, hnm using Nat.le_induction generalizing b with
  | base => exact hempty b
  | succ m _ ih =>
    intro hb
    obtain ⟨⟨c, hc, -⟩, -⟩ := nearest_succ_iff.mp hb
    exact ih c hc

end Lix.LayeredSearch
