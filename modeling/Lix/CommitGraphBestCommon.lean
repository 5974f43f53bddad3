import Lix.CommitGraphWalker

/-! The walk of `best_common_ids` always ends: every popped commit is a stored commit, and
the queue only ever holds keys below those already popped, so no commit is popped twice.
One round per stored commit and one more to stop are enough, whatever the stored records
say; `best_common_ids` and `best_common_ancestors` are defined on that bound. -/
namespace Lix.CommitGraph
open KeyCodec TrackedState SortedWalk

variable {reader : CommitGraphStoreReader}

/-- What bounds the walk: the commits popped so far are distinct stored commits, and every
queued key is below each of their keys. -/
structure WalkBound (reader : CommitGraphStoreReader) (popped : List CommitId) (s : PaintState) :
    Prop where
  nodup : popped.Nodup
  stored : ∀ d ∈ popped, d ∈ reader.nodes.map (·.commitId)
  below : ∀ q ∈ s.queue, ∀ d ∈ popped, compare q (reader.generation d, d) = .lt

theorem WalkBound.length_le {popped : List CommitId} {s : PaintState}
    (hb : WalkBound reader popped s) : popped.length ≤ reader.nodes.length := by
  have hle := (hb.nodup.subperm hb.stored).length_le
  rwa [List.length_map] at hle

theorem walkBound_initial (left right : CommitId) (lg rg : ℕ) :
    WalkBound reader [] (initialPaintState left right lg rg) where
  nodup := List.nodup_nil
  stored := by simp
  below := by simp

/-- Every key a step queues is below the key it popped. -/
theorem lt_popped_of_paintCommit {s t : PaintState} {g : ℕ} {c : CommitId}
    {queue : OrderedSet (ℕ × CommitId)}
    (hpop : s.queue.popLast = some ((g, c), queue))
    (h : paintCommit reader g c { s with queue, nonStaleQueued := s.nonStaleQueued.erase c } = .ok t)
    (q : ℕ × CommitId) (hq : q ∈ t.queue) : compare q (g, c) = .lt := by
  obtain ⟨-, hmax, hrest⟩ := OrderedSet.popLast_eq_some hpop
  obtain ⟨commit, -, -, hfold⟩ := paintCommit_eq_ok h
  have hpainted := foldlM_paintParent_eq_ok hfold
  rw [hpainted.queue, queue_markBest] at hq
  rcases hq with hq | ⟨p, hp, rfl⟩
  · -- an old entry: below the popped maximum
    obtain ⟨hq, hne⟩ := (hrest q).mp hq
    exact hmax q hq hne
  · -- a parent: stored below the popped generation
    obtain ⟨parent, hload, hlt⟩ := hpainted.loaded p hp
    rw [CommitGraphStoreReader.generation_of_loadNode hload]
    exact compare_key_of_generation_lt p c hlt

/-- One round of the walk pops a commit not popped before. -/
theorem WalkBound.step {popped : List CommitId} {s t : PaintState} {g : ℕ} {c : CommitId}
    {queue : OrderedSet (ℕ × CommitId)} (hb : WalkBound reader popped s)
    (hpop : s.queue.popLast = some ((g, c), queue))
    (h : paintCommit reader g c { s with queue, nonStaleQueued := s.nonStaleQueued.erase c } = .ok t) :
    WalkBound reader (c :: popped) t := by
  obtain ⟨hmem, -, -⟩ := OrderedSet.popLast_eq_some hpop
  obtain ⟨commit, hload, hgen, -⟩ := paintCommit_eq_ok h
  have hkey : reader.generation c = g := (CommitGraphStoreReader.generation_of_loadNode hload).trans hgen
  constructor
  · refine List.nodup_cons.mpr ⟨fun hc => ?_, hb.nodup⟩
    have hlt := hb.below (g, c) hmem c hc
    rw [hkey, Std.ReflOrd.compare_self] at hlt
    cases hlt
  · intro d hd
    rcases List.mem_cons.mp hd with rfl | hd
    · exact CommitGraphStoreReader.mem_ids_of_loadNode hload
    · exact hb.stored d hd
  · intro q hq d hd
    have hqc := lt_popped_of_paintCommit hpop h q hq
    rcases List.mem_cons.mp hd with rfl | hd
    · rwa [hkey]
    · exact Std.TransCmp.lt_trans hqc (hb.below (g, c) hmem d hd)

theorem bestCommonIdsLoop_isSome_of_bound (fuel : ℕ) (popped : List CommitId) (s : PaintState)
    (hb : WalkBound reader popped s) (hfuel : reader.nodes.length < popped.length + fuel) :
    (bestCommonIdsLoop reader fuel s).isSome := by
  fun_induction bestCommonIdsLoop reader fuel s generalizing popped with
  | case1 s =>
    have := hb.length_le
    omega
  | case2 fuel s hpop => rfl
  | case3 fuel s g c queue hpop hstop => rfl
  | case4 fuel s g c queue hpop hgo e herr => rfl
  | case5 fuel s g c queue hpop hgo t hstep ih =>
    apply ih (c :: popped) (hb.step hpop hstep)
    rw [List.length_cons]
    omega

/-- The walk from both heads ends within one round per stored commit, and one more. -/
theorem bestCommonIdsLoop_isSome (reader : CommitGraphStoreReader) (left right : CommitId)
    (lg rg : ℕ) :
    (bestCommonIdsLoop reader (reader.nodes.length + 1) (initialPaintState left right lg rg)).isSome :=
  bestCommonIdsLoop_isSome_of_bound _ [] _ (walkBound_initial left right lg rg) (by simp)

/-- `NodeTraversalLoader::best_common_ids`: load both heads, walk, then sort and drop
repeats. -/
def bestCommonIds (reader : CommitGraphStoreReader) (left right : CommitId) :
    Except LixError (List CommitId) := do
  let leftNode ← NodeTraversalLoader.loadNode reader left
  let rightNode ← NodeTraversalLoader.loadNode reader right
  let best ← (bestCommonIdsLoop reader (reader.nodes.length + 1)
    (initialPaintState left right leftNode.generation rightNode.generation)).get
    (bestCommonIdsLoop_isSome reader left right _ _)
  pure (dedupAdjacent (sortByKey id best))

/-- `best_common_ancestors`: the nodes of the best common ancestors, in commit-id order. -/
def bestCommonAncestors (reader : CommitGraphStoreReader) (left right : CommitId) :
    Except LixError (List CommitGraphNode) := do
  let best ← bestCommonIds reader left right
  best.mapM (NodeTraversalLoader.loadNode reader)

end Lix.CommitGraph
