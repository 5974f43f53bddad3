import Lix.OrderedSet
import Lix.CommitGraphContext
import Lix.ExceptSpec

/-! `best_common_ancestors` of `commit_graph/walker.rs`, a paint-down-to-common walk. The two
heads are painted LEFT and RIGHT; commits leave a queue in decreasing
`(generation, commit_id)` order and hand their paint to their parents. A commit painted
with both colours and not yet STALE is a best common ancestor; it turns STALE, and so does
everything below it. The walk stops early once an ancestor is found and no queued commit
is still non-stale. -/
namespace Lix.CommitGraph
open KeyCodec TrackedState SortedWalk

/-- The queue's `(generation, commit_id)` entries compare generation first, as Rust
tuples do. -/
instance : Ord (ℕ × CommitId) := lexOrd

theorem compare_key_of_generation_lt {g g' : ℕ} (c c' : CommitId) (h : g < g') :
    compare (g, c) (g', c') = .lt := by
  change (compare g g').then (compare c c') = .lt
  rw [Nat.compare_eq_lt.mpr h]
  rfl

/-- `NodeTraversalLoader::load_node`: a missing commit is an error. -/
def NodeTraversalLoader.loadNode (reader : CommitGraphStoreReader) (commitId : CommitId) :
    Except LixError CommitGraphNode :=
  match reader.loadNode commitId with
  | none => .error (missingCommitGraphError commitId)
  | some commit => .ok commit

theorem NodeTraversalLoader.loadNode_eq_ok {reader : CommitGraphStoreReader}
    {commitId : CommitId} {commit : CommitGraphNode} :
    NodeTraversalLoader.loadNode reader commitId = .ok commit ↔
      reader.loadNode commitId = some commit := by
  unfold NodeTraversalLoader.loadNode
  cases reader.loadNode commitId <;> simp

section Colors

def colorLeft : UInt8 := 1
def colorRight : UInt8 := 2
def colorBoth : UInt8 := colorLeft ||| colorRight
def colorStale : UInt8 := 4

/-- Whether a colour has the given bit: `0` LEFT, `1` RIGHT, `2` STALE. -/
def hasColor (color : UInt8) (bit : ℕ) : Bool := color.toNat.testBit bit

@[simp] theorem hasColor_or (a b : UInt8) (bit : ℕ) :
    hasColor (a ||| b) bit = (hasColor a bit || hasColor b bit) := by
  rw [hasColor, UInt8.toNat_or, Nat.testBit_or]
  rfl

@[simp] theorem hasColor_zero (bit : ℕ) : hasColor 0 bit = false := by
  simp [hasColor]

theorem and_colorStale_eq_zero_iff (color : UInt8) :
    color &&& colorStale = 0 ↔ hasColor color 2 = false := by
  rw [← UInt8.toNat_inj, UInt8.toNat_and]
  have hfour : colorStale.toNat = 2 ^ 2 := rfl
  rw [hfour, Nat.and_two_pow, hasColor]
  cases color.toNat.testBit 2 <;> simp

theorem and_colorBoth_eq_colorBoth_iff (color : UInt8) :
    color &&& colorBoth = colorBoth ↔ hasColor color 0 = true ∧ hasColor color 1 = true := by
  rw [← UInt8.toNat_inj, UInt8.toNat_and]
  have hthree : colorBoth.toNat = 2 ^ 2 - 1 := rfl
  rw [hthree, Nat.and_two_pow_sub_one_eq_mod, hasColor, hasColor, Nat.testBit_zero,
    Nat.testBit_succ, Nat.testBit_zero]
  simp only [decide_eq_true_eq]
  omega

end Colors

/-- The walk's state: the paint of every commit (`0` for an absent map entry), the queue,
the queued commits that are not stale, and the best ancestors found. -/
structure PaintState where
  colors : CommitId → UInt8
  queue : OrderedSet (ℕ × CommitId)
  nonStaleQueued : OrderedSet CommitId
  best : List CommitId

section Walk

variable (reader : CommitGraphStoreReader)

/-- One turn of the loop over a popped commit's parents: the parent takes the commit's
colour and is queued, and listed as non-stale exactly when its colour is. -/
def paintParent (generation : ℕ) (commitId : CommitId) (color : UInt8) (s : PaintState)
    (parentCommitId : CommitId) : Except LixError PaintState := do
  let parent ← NodeTraversalLoader.loadNode reader parentCommitId
  if parent.generation ≥ generation then
    throw ⟨"LIX_ERROR_UNKNOWN", "commit '" ++ commitId.toString ++ "' parent '" ++
      parentCommitId.toString ++ "' does not have a lower generation"⟩
  let parentColor := s.colors parentCommitId ||| color
  pure { s with
    colors := Function.update s.colors parentCommitId parentColor
    queue := s.queue.insert (parent.generation, parentCommitId)
    nonStaleQueued :=
      if parentColor &&& colorStale = 0 then s.nonStaleQueued.insert parentCommitId
      else s.nonStaleQueued.erase parentCommitId }

/-- A commit painted with both colours and not yet stale is recorded as best and turns
stale; the colour it passes on is the one it ends with. -/
def markBest (commitId : CommitId) (s : PaintState) : UInt8 × PaintState :=
  let color := s.colors commitId
  if color &&& colorStale = 0 ∧ color &&& colorBoth = colorBoth then
    (color ||| colorStale, { s with
      best := s.best ++ [commitId]
      colors := Function.update s.colors commitId (color ||| colorStale) })
  else (color, s)

/-- The body of the `while` loop, after `(generation, commit_id)` left the queue. -/
def paintCommit (generation : ℕ) (commitId : CommitId) (s : PaintState) :
    Except LixError PaintState := do
  let commit ← NodeTraversalLoader.loadNode reader commitId
  if commit.generation ≠ generation then
    throw ⟨"LIX_ERROR_UNKNOWN", "commit '" ++ commitId.toString ++
      "' generation changed during graph walk"⟩
  let (color, s) := markBest commitId s
  commit.parentCommitIds.foldlM (paintParent reader generation commitId color) s

/-- The `while` loop. It returns the best ancestors in the order found; `none` only when
`fuel` rounds were not enough, which `bestCommonIdsLoop_isSome` rules out for a fuel of
one more than the number of stored commits. -/
def bestCommonIdsLoop : ℕ → PaintState → Option (Except LixError (List CommitId))
  | 0, _ => none
  | fuel + 1, s =>
    match s.queue.popLast with
    | none => some (.ok s.best)
    | some ((generation, commitId), queue) =>
      if s.best ≠ [] ∧ s.nonStaleQueued.isEmpty = true then some (.ok s.best)
      else
        match paintCommit reader generation commitId
            { s with queue, nonStaleQueued := s.nonStaleQueued.erase commitId } with
        | .error e => some (.error e)
        | .ok s => bestCommonIdsLoop fuel s

/-- The state `best_common_ids` starts from, both heads loaded. -/
def initialPaintState (left right : CommitId) (leftGeneration rightGeneration : ℕ) :
    PaintState :=
  let colors := Function.update (Function.update (fun _ => 0) left colorLeft) right colorRight
  { colors := if left = right then Function.update colors left colorBoth else colors
    queue := OrderedSet.ofList [(leftGeneration, left), (rightGeneration, right)]
    nonStaleQueued := OrderedSet.ofList [left, right]
    best := [] }

end Walk

section Steps

variable {reader : CommitGraphStoreReader}

theorem paintParent_eq_ok {g : ℕ} {c : CommitId} {color : UInt8} {s t : PaintState}
    {p : CommitId} (h : paintParent reader g c color s p = .ok t) :
    ∃ parent, reader.loadNode p = some parent ∧ parent.generation < g ∧
      t = { s with
        colors := Function.update s.colors p (s.colors p ||| color)
        queue := s.queue.insert (parent.generation, p)
        nonStaleQueued :=
          if (s.colors p ||| color) &&& colorStale = 0 then s.nonStaleQueued.insert p
          else s.nonStaleQueued.erase p } := by
  unfold paintParent at h
  obtain ⟨parent, hload, hrest⟩ := ExceptSpec.bind_eq_ok.mp h
  refine ⟨parent, NodeTraversalLoader.loadNode_eq_ok.mp hload, ?_⟩
  by_cases hgen : parent.generation ≥ g
  · rw [if_pos hgen] at hrest
    cases hrest
  · rw [if_neg hgen] at hrest
    exact ⟨by omega, (ExceptSpec.pure_eq_ok.mp hrest).symm⟩

theorem paintParent_isOk {g : ℕ} (c : CommitId) (color : UInt8) (s : PaintState)
    {p : CommitId} {parent : CommitGraphNode} (hload : reader.loadNode p = some parent)
    (hlt : parent.generation < g) : ∃ t, paintParent reader g c color s p = .ok t := by
  unfold paintParent
  rw [NodeTraversalLoader.loadNode_eq_ok.mpr hload]
  simp only [bind, Except.bind]
  rw [if_neg (by omega)]
  exact ⟨_, rfl⟩

/-- What the loop over a commit's parents did, from `s` to `t`: every parent is stored
below the commit's generation, gains the commit's colour and is queued, and is listed as
non-stale exactly when its final colour is not stale. -/
structure ParentsPainted (reader : CommitGraphStoreReader) (g : ℕ) (color : UInt8)
    (ps : List CommitId) (s t : PaintState) : Prop where
  loaded : ∀ p ∈ ps, ∃ parent, reader.loadNode p = some parent ∧ parent.generation < g
  colors : ∀ d bit,
    hasColor (t.colors d) bit = (hasColor (s.colors d) bit || (decide (d ∈ ps) && hasColor color bit))
  queue : ∀ q, q ∈ t.queue ↔ q ∈ s.queue ∨ ∃ p ∈ ps, q = (reader.generation p, p)
  nonStaleQueued : ∀ x, x ∈ t.nonStaleQueued ↔
    if x ∈ ps then hasColor (t.colors x) 2 = false else x ∈ s.nonStaleQueued
  best : t.best = s.best

theorem parentsPainted_nil (g : ℕ) (color : UInt8) (s : PaintState) :
    ParentsPainted reader g color [] s s where
  loaded := by simp
  colors := by simp
  queue := by simp
  nonStaleQueued := by simp
  best := rfl

/-- Painting one more parent in front of a painted run. -/
theorem ParentsPainted.cons {g : ℕ} {c : CommitId} {color : UInt8} {p : CommitId}
    {ps : List CommitId} {s s₁ t : PaintState} (hp : paintParent reader g c color s p = .ok s₁)
    (hrest : ParentsPainted reader g color ps s₁ t) :
    ParentsPainted reader g color (p :: ps) s t := by
  obtain ⟨parent, hload, hlt, rfl⟩ := paintParent_eq_ok hp
  have hgen := CommitGraphStoreReader.generation_of_loadNode hload
  constructor
  · intro q hq
    rcases List.mem_cons.mp hq with rfl | hq
    · exact ⟨parent, hload, hlt⟩
    · exact hrest.loaded q hq
  · intro d bit
    rw [hrest.colors]
    by_cases hd : d = p
    · subst hd
      simp only [Function.update_self, hasColor_or, List.mem_cons_self, decide_true,
        Bool.true_and]
      cases hasColor color bit <;> simp
    · simp [hd]
  · intro q
    rw [hrest.queue, OrderedSet.mem_insert, ← hgen]
    simp only [List.mem_cons, exists_eq_or_imp]
    tauto
  · intro x
    rw [hrest.nonStaleQueued]
    by_cases hx : x ∈ ps
    · simp [hx]
    · -- `x` is not painted again after this step, so its colour is final here
      have hcolor : hasColor (t.colors x) 2 = hasColor (Function.update s.colors p
          (s.colors p ||| color) x) 2 := by
        rw [hrest.colors]
        simp [hx]
      by_cases hxp : x = p
      · subst hxp
        rw [if_neg hx, if_pos List.mem_cons_self, hcolor, Function.update_self]
        split
        · rename_i hstale
          simp only [OrderedSet.mem_insert, true_or, true_iff]
          exact (and_colorStale_eq_zero_iff _).mp hstale
        · rename_i hstale
          simp only [OrderedSet.mem_erase, ne_eq, not_true_eq_false, false_and, false_iff]
          exact fun h => hstale ((and_colorStale_eq_zero_iff _).mpr h)
      · have hmem : x ∉ p :: ps := by simp [hxp, hx]
        rw [if_neg hx, if_neg hmem]
        split <;> simp [hxp]
  · exact hrest.best

theorem foldlM_paintParent_eq_ok {g : ℕ} {c : CommitId} {color : UInt8} {ps : List CommitId}
    {s t : PaintState} (h : ps.foldlM (paintParent reader g c color) s = .ok t) :
    ParentsPainted reader g color ps s t := by
  induction ps generalizing s with
  | nil =>
    cases ExceptSpec.pure_eq_ok.mp h
    exact parentsPainted_nil g color _
  | cons p ps ih =>
    rw [List.foldlM_cons] at h
    obtain ⟨s₁, hp, hrest⟩ := ExceptSpec.bind_eq_ok.mp h
    exact ParentsPainted.cons hp (ih hrest)

theorem foldlM_paintParent_isOk {g : ℕ} (c : CommitId) (color : UInt8) {ps : List CommitId}
    (hps : ∀ p ∈ ps, ∃ parent, reader.loadNode p = some parent ∧ parent.generation < g)
    (s : PaintState) : ∃ t, ps.foldlM (paintParent reader g c color) s = .ok t := by
  induction ps generalizing s with
  | nil => exact ⟨s, rfl⟩
  | cons p ps ih =>
    obtain ⟨parent, hload, hlt⟩ := hps p List.mem_cons_self
    obtain ⟨s₁, hs₁⟩ := paintParent_isOk c color s hload hlt
    obtain ⟨t, ht⟩ := ih (fun q hq => hps q (List.mem_cons_of_mem p hq)) s₁
    refine ⟨t, ?_⟩
    rw [List.foldlM_cons, hs₁]
    exact ht

/-- Both colours and no stale bit: the colour of a best common ancestor. -/
def IsBestColor (color : UInt8) : Prop :=
  hasColor color 2 = false ∧ hasColor color 0 = true ∧ hasColor color 1 = true

instance (color : UInt8) : Decidable (IsBestColor color) := by
  unfold IsBestColor
  infer_instance

theorem markBest_eq (c : CommitId) (s : PaintState) :
    markBest c s = if IsBestColor (s.colors c) then
      (s.colors c ||| colorStale, { s with
        best := s.best ++ [c]
        colors := Function.update s.colors c (s.colors c ||| colorStale) })
    else (s.colors c, s) := by
  unfold markBest IsBestColor
  simp only [and_colorStale_eq_zero_iff, and_colorBoth_eq_colorBoth_iff]

/-- The colour a popped commit passes on: its own, stale as well when it is best. -/
theorem hasColor_markBest (c : CommitId) (s : PaintState) (bit : ℕ) :
    hasColor (markBest c s).1 bit =
      (hasColor (s.colors c) bit || (bit == 2 && decide (IsBestColor (s.colors c)))) := by
  rw [markBest_eq]
  split
  · rename_i hbest
    have hstale : hasColor colorStale bit = (bit == 2) := by
      rcases bit with _ | _ | _ | bit <;> simp [hasColor, colorStale, Nat.testBit_succ]
    simp [hstale, hbest]
  · rename_i hbest
    simp [hbest]

/-- The popped commit's map entry is the colour it passes on; no other entry changes. -/
theorem colors_markBest (c d : CommitId) (s : PaintState) :
    (markBest c s).2.colors d = if d = c then (markBest c s).1 else s.colors d := by
  rw [markBest_eq]
  split
  · by_cases hd : d = c
    · subst hd
      simp
    · simp [hd]
  · split
    · rename_i hd
      rw [hd]
    · rfl

theorem queue_markBest (c : CommitId) (s : PaintState) : (markBest c s).2.queue = s.queue := by
  rw [markBest_eq]
  split <;> rfl

theorem nonStaleQueued_markBest (c : CommitId) (s : PaintState) :
    (markBest c s).2.nonStaleQueued = s.nonStaleQueued := by
  rw [markBest_eq]
  split <;> rfl

theorem best_markBest (c : CommitId) (s : PaintState) :
    (markBest c s).2.best = if IsBestColor (s.colors c) then s.best ++ [c] else s.best := by
  rw [markBest_eq]
  split <;> rfl

theorem paintCommit_eq_ok {g : ℕ} {c : CommitId} {s t : PaintState}
    (h : paintCommit reader g c s = .ok t) :
    ∃ commit, reader.loadNode c = some commit ∧ commit.generation = g ∧
      commit.parentCommitIds.foldlM (paintParent reader g c (markBest c s).1)
        (markBest c s).2 = .ok t := by
  unfold paintCommit at h
  obtain ⟨commit, hload, hrest⟩ := ExceptSpec.bind_eq_ok.mp h
  refine ⟨commit, NodeTraversalLoader.loadNode_eq_ok.mp hload, ?_⟩
  by_cases hgen : commit.generation ≠ g
  · rw [if_pos hgen] at hrest
    cases hrest
  · rw [if_neg hgen] at hrest
    exact ⟨not_not.mp hgen, hrest⟩

theorem paintCommit_isOk {g : ℕ} {c : CommitId} (s : PaintState) {commit : CommitGraphNode}
    (hload : reader.loadNode c = some commit) (hgen : commit.generation = g)
    (hparents : ∀ p ∈ commit.parentCommitIds,
      ∃ parent, reader.loadNode p = some parent ∧ parent.generation < g) :
    ∃ t, paintCommit reader g c s = .ok t := by
  obtain ⟨t, ht⟩ := foldlM_paintParent_isOk c (markBest c s).1 hparents
    (markBest c s).2
  refine ⟨t, ?_⟩
  unfold paintCommit
  rw [NodeTraversalLoader.loadNode_eq_ok.mpr hload]
  simp only [bind, Except.bind]
  rw [if_neg (not_not.mpr hgen)]
  exact ht

end Steps

end Lix.CommitGraph
