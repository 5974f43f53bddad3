import Mathlib

/-! Content-defined chunking with byte ceilings. A sequence is cut, left to right, into
consecutive groups: an item that would take a nonempty group past the maximum size closes the
group before it, and after taking an item a group of at least the minimum size closes when it
reaches the maximum or when a boundary test on that item fires. At the end an open group
closes.

The groups partition the sequence in order and are never empty; each is within the maximum
unless it holds a single item. Items too large to share a group come out one by one, so a pass
over them changes nothing; items that never reach the minimum alone and always fit in pairs
come out at least two to a group, but for the last, so a pass at least halves their count. -/
namespace Lix.Chunking

/-- An invariant of a left fold, over the items consumed so far. -/
theorem foldl_invariant {α σ : Type*} (f : σ → α → σ) (items : List α)
    (P : List α → σ → Prop) (hstep : ∀ done x s, x ∈ items → P done s → P (done ++ [x]) (f s x))
    (done : List α) (init : σ) (hinit : P done init) : P (done ++ items) (items.foldl f init) := by
  induction items generalizing done init with
  | nil => simpa using hinit
  | cons x items ih =>
    rw [List.foldl_cons, ← List.singleton_append, ← List.append_assoc]
    exact ih (fun done y s hy => hstep done y s (List.mem_cons_of_mem x hy)) _ _
      (hstep done x init List.mem_cons_self hinit)

variable {α : Type*} (size : List α → ℕ) (boundary : α → ℕ → Bool) (minSize maxSize : ℕ)

/-- The open group after it takes `item`, and the groups closed so far: the open group closes
first when it is not empty and `item` would take it past the maximum. -/
def takeItem (groups : List (List α)) (current : List α) (item : α) : List (List α) × List α :=
  if !current.isEmpty && decide (maxSize < size (current ++ [item])) then (groups ++ [current], [item])
  else (groups, current ++ [item])

/-- One item of the pass: take it, then close the group if it is large enough and full or at a
boundary. -/
def chunkStep (state : List (List α) × List α) (item : α) : List (List α) × List α :=
  let (groups, current) := takeItem size maxSize state.1 state.2 item
  let currentSize := size current
  if decide (minSize ≤ currentSize) && (decide (maxSize ≤ currentSize) || boundary item currentSize)
  then (groups ++ [current], [])
  else (groups, current)

/-- The end of the pass: a group still open closes. -/
def chunkFinish (state : List (List α) × List α) : List (List α) :=
  if state.2.isEmpty then state.1 else state.1 ++ [state.2]

/-- The pass over a whole sequence. -/
def chunk (items : List α) : List (List α) :=
  chunkFinish (items.foldl (chunkStep size boundary minSize maxSize) ([], []))

/-- A group within the maximum, or a single item. -/
def Fits (group : List α) : Prop := group.length ≤ 1 ∨ size group ≤ maxSize

/-! ### One step -/

/-- Everything one step can do: close the open group or not before the item, then close the
group holding the item or not. -/
theorem chunkStep_cases (groups : List (List α)) (current : List α) (item : α) :
    ∃ closed opened,
      ((closed = groups ∧ opened = current ++ [item] ∧
          (current = [] ∨ size (current ++ [item]) ≤ maxSize)) ∨
        (closed = groups ++ [current] ∧ opened = [item] ∧ current ≠ [] ∧
          maxSize < size (current ++ [item]))) ∧
      ((chunkStep size boundary minSize maxSize (groups, current) item = (closed ++ [opened], []) ∧
          minSize ≤ size opened ∧ (maxSize ≤ size opened ∨ boundary item (size opened) = true)) ∨
        (chunkStep size boundary minSize maxSize (groups, current) item = (closed, opened) ∧
          ¬(minSize ≤ size opened ∧ (maxSize ≤ size opened ∨ boundary item (size opened) = true)))) := by
  have htake : ∃ closed opened, takeItem size maxSize groups current item = (closed, opened) ∧
      ((closed = groups ∧ opened = current ++ [item] ∧
          (current = [] ∨ size (current ++ [item]) ≤ maxSize)) ∨
        (closed = groups ++ [current] ∧ opened = [item] ∧ current ≠ [] ∧
          maxSize < size (current ++ [item]))) := by
    unfold takeItem
    split
    · next hclose =>
      simp only [Bool.and_eq_true, Bool.not_eq_true', List.isEmpty_eq_false_iff,
        decide_eq_true_eq] at hclose
      exact ⟨_, _, rfl, .inr ⟨rfl, rfl, hclose⟩⟩
    · next hkeep =>
      simp only [Bool.and_eq_true, Bool.not_eq_true', List.isEmpty_eq_false_iff,
        decide_eq_true_eq, not_and, Nat.not_lt] at hkeep
      exact ⟨_, _, rfl, .inl ⟨rfl, rfl, Classical.or_iff_not_imp_left.mpr hkeep⟩⟩
  obtain ⟨closed, opened, htake, hcases⟩ := htake
  refine ⟨closed, opened, hcases, ?_⟩
  unfold chunkStep
  rw [htake]
  dsimp only
  split
  · next hclose =>
    simp only [Bool.and_eq_true, Bool.or_eq_true, decide_eq_true_eq] at hclose
    exact .inl ⟨rfl, hclose⟩
  · next hkeep =>
    simp only [Bool.and_eq_true, Bool.or_eq_true, decide_eq_true_eq] at hkeep
    exact .inr ⟨rfl, hkeep⟩

variable {size boundary minSize maxSize}

/-! ### The partition -/

theorem flatten_chunkStep (state : List (List α) × List α) (item : α) :
    (chunkStep size boundary minSize maxSize state item).1.flatten ++
        (chunkStep size boundary minSize maxSize state item).2 =
      state.1.flatten ++ state.2 ++ [item] := by
  obtain ⟨groups, current⟩ := state
  obtain ⟨closed, opened, hopen, hclose⟩ :=
    chunkStep_cases size boundary minSize maxSize groups current item
  rcases hopen with ⟨rfl, rfl, -⟩ | ⟨rfl, rfl, -⟩ <;>
    rcases hclose with ⟨hstep, -⟩ | ⟨hstep, -⟩ <;> simp [hstep]

/-- The groups, read in order, are the sequence. -/
theorem flatten_chunk (items : List α) :
    (chunk size boundary minSize maxSize items).flatten = items := by
  have hrun := foldl_invariant (chunkStep size boundary minSize maxSize) items
    (fun done state => state.1.flatten ++ state.2 = done)
    (fun done item state _ hdone => by rw [flatten_chunkStep, hdone]) [] ([], []) rfl
  unfold chunk chunkFinish
  split
  · next hempty =>
    rw [List.isEmpty_iff.mp hempty, List.append_nil] at hrun
    simpa using hrun
  · simpa using hrun

/-! ### The shape of the groups -/

/-- No group is empty. -/
theorem ne_nil_of_mem_chunk {items : List α} :
    ∀ group ∈ chunk size boundary minSize maxSize items, group ≠ [] := by
  have hrun := foldl_invariant (chunkStep size boundary minSize maxSize) items
    (fun _ state => ∀ group ∈ state.1, group ≠ [])
    (fun _ item ⟨groups, current⟩ _ hgroups => by
      obtain ⟨closed, opened, hopen, hclose⟩ :=
        chunkStep_cases size boundary minSize maxSize groups current item
      have hclosed : ∀ group ∈ closed, group ≠ [] := by
        rcases hopen with ⟨rfl, -⟩ | ⟨rfl, -, hcurrent, -⟩
        · exact hgroups
        · exact List.forall_mem_append.mpr ⟨hgroups, List.forall_mem_singleton.mpr hcurrent⟩
      have hopened : opened ≠ [] := by
        rcases hopen with ⟨-, rfl, -⟩ | ⟨-, rfl, -⟩ <;> simp
      rcases hclose with ⟨hstep, -⟩ | ⟨hstep, -⟩ <;> rw [hstep]
      · exact List.forall_mem_append.mpr ⟨hclosed, List.forall_mem_singleton.mpr hopened⟩
      · exact hclosed)
    [] ([], []) (by simp)
  unfold chunk chunkFinish
  split
  · exact hrun
  · next hempty =>
    exact List.forall_mem_append.mpr
      ⟨hrun, List.forall_mem_singleton.mpr (List.isEmpty_iff.not.mp hempty)⟩

/-- Items each too large to share a group come out one by one. -/
theorem chunk_of_large {items : List α}
    (hlarge : ∀ item ∈ items, minSize ≤ size [item] ∧ maxSize ≤ size [item]) :
    chunk size boundary minSize maxSize items = items.map fun item => [item] := by
  have hrun := foldl_invariant (chunkStep size boundary minSize maxSize) items
    (fun done state => state = (done.map fun item => [item], []))
    (fun done item _ hitem hstate => by
      subst hstate
      obtain ⟨closed, opened, hopen, hclose⟩ :=
        chunkStep_cases size boundary minSize maxSize (done.map fun item => [item]) [] item
      obtain ⟨rfl, rfl⟩ : closed = done.map (fun item => [item]) ∧ opened = [item] := by
        rcases hopen with ⟨h₁, h₂, -⟩ | ⟨-, -, hne, -⟩
        · exact ⟨h₁, by simpa using h₂⟩
        · exact absurd rfl hne
      rcases hclose with ⟨hstep, -⟩ | ⟨-, hkeep⟩
      · simp [hstep]
      · exact absurd ⟨(hlarge item hitem).1, .inl (hlarge item hitem).2⟩ hkeep)
    [] ([], []) rfl
  unfold chunk chunkFinish
  rw [List.nil_append] at hrun
  simp [hrun]

/-- Items no two of which fit in one group come out one by one. -/
theorem chunk_of_no_pairs {items : List α}
    (hpairs : ∀ first ∈ items, ∀ second ∈ items, maxSize < size [first, second]) :
    chunk size boundary minSize maxSize items = items.map fun item => [item] := by
  have hrun := foldl_invariant (chunkStep size boundary minSize maxSize) items
    (fun done state => chunkFinish state = done.map (fun item => [item]) ∧
      (state.2 = [] ∨ ∃ x ∈ items, state.2 = [x]))
    (fun done item ⟨groups, current⟩ hitem ⟨hdone, hcurrent⟩ => by
      obtain ⟨closed, opened, hopen, hclose⟩ :=
        chunkStep_cases size boundary minSize maxSize groups current item
      have hclosed : closed = done.map (fun item => [item]) ∧ opened = [item] := by
        rcases hopen with ⟨rfl, rfl, hempty | hfits⟩ | ⟨rfl, rfl, hne, -⟩
        · subst hempty
          simpa [chunkFinish] using hdone
        · rcases hcurrent with rfl | ⟨x, hx, rfl⟩
          · simpa [chunkFinish] using hdone
          · exact absurd hfits (Nat.not_le.mpr (hpairs x hx item hitem))
        · simpa [chunkFinish, hne] using hdone
      obtain ⟨rfl, rfl⟩ := hclosed
      rcases hclose with ⟨hstep, -⟩ | ⟨hstep, -⟩ <;> rw [hstep]
      · simp [chunkFinish]
      · exact ⟨by simp [chunkFinish], .inr ⟨item, hitem, rfl⟩⟩)
    [] ([], []) ⟨rfl, .inl rfl⟩
  rw [List.nil_append] at hrun
  exact hrun.1

/-- A pass makes at most as many groups as there are items. -/
theorem length_chunk_le (items : List α) :
    (chunk size boundary minSize maxSize items).length ≤ items.length := by
  have hsum : ((chunk size boundary minSize maxSize items).map List.length).sum = items.length := by
    rw [← List.length_flatten, flatten_chunk]
  have hone : ∀ group ∈ chunk size boundary minSize maxSize items, 1 ≤ group.length :=
    fun group hgroup => List.length_pos_of_ne_nil (ne_nil_of_mem_chunk group hgroup)
  calc (chunk size boundary minSize maxSize items).length
      = ((chunk size boundary minSize maxSize items).map fun _ => 1).sum := by simp
    _ ≤ ((chunk size boundary minSize maxSize items).map List.length).sum :=
      List.sum_le_sum (fun group hgroup => hone group hgroup)
    _ = items.length := hsum

/-- Items that never reach the minimum alone and always fit in pairs come out at least two to a
group, but for the last one. -/
theorem two_mul_length_chunk_le {items : List α}
    (hsmall : ∀ item ∈ items, size [item] < minSize)
    (hpair : ∀ first ∈ items, ∀ second ∈ items, size [first, second] ≤ maxSize) :
    2 * (chunk size boundary minSize maxSize items).length ≤ items.length + 1 := by
  have hrun := foldl_invariant (chunkStep size boundary minSize maxSize) items
    (fun done state => 2 * state.1.length + state.2.length ≤ done.length ∧ ∀ x ∈ state.2, x ∈ items)
    (fun done item ⟨groups, current⟩ hitem ⟨hcount, hmem⟩ => by
      obtain ⟨closed, opened, hopen, hclose⟩ :=
        chunkStep_cases size boundary minSize maxSize groups current item
      have hopened : 2 * closed.length + opened.length ≤ done.length + 1 ∧ ∀ x ∈ opened, x ∈ items := by
        rcases hopen with ⟨rfl, rfl, -⟩ | ⟨rfl, rfl, hne, hover⟩
        · refine ⟨by simp at hcount ⊢; omega, ?_⟩
          exact List.forall_mem_append.mpr ⟨hmem, List.forall_mem_singleton.mpr hitem⟩
        · have htwo : 2 ≤ current.length := by
            match current, hmem, hover with
            | [], _, _ => exact absurd rfl hne
            | [x], hx, hover =>
              exact absurd (hpair x (hx x (by simp)) item hitem) (Nat.not_le.mpr hover)
            | _ :: _ :: _, _, _ => simp
          exact ⟨by simp at hcount ⊢; omega, by simpa using hitem⟩
      rcases hclose with ⟨hstep, hmin, -⟩ | ⟨hstep, -⟩ <;> rw [hstep]
      · -- a group that closes after the item has reached the minimum, so it holds two items
        have hne : opened ≠ [] := by
          rcases hopen with ⟨-, rfl, -⟩ | ⟨-, rfl, -⟩ <;> simp
        have htwo : 2 ≤ opened.length := by
          match opened, hne, hopened.2, hmin with
          | [], hne, _, _ => exact absurd rfl hne
          | [x], _, hx, hmin => exact absurd hmin (Nat.not_le.mpr (hsmall x (hx x (by simp))))
          | _ :: _ :: _, _, _, _ => simp
        refine ⟨?_, by simp⟩
        simp only [List.length_append, List.length_singleton, List.length_nil, Nat.add_zero]
        omega
      · simpa using hopened)
    [] ([], []) ⟨by simp, by simp⟩
  rw [List.nil_append] at hrun
  unfold chunk chunkFinish
  split
  · omega
  · next hempty =>
    have hpos := List.length_pos_of_ne_nil (List.isEmpty_iff.not.mp hempty)
    simp only [List.length_append, List.length_singleton]
    omega

end Lix.Chunking
