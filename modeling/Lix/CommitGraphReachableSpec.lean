import Lix.CommitGraphReachable
import Lix.CommitGraphWalkerSpec
import Lix.LayeredSearch

/-! `walk_reachable_nodes` is a breadth-first enumeration: it returns every commit reachable
from the head once, at the length of its shortest parent path, in `(depth, commit_id)` order,
and a bound on the depth keeps the layers up to it. The proof is an invariant of the walk after
`n` rounds: the seen set is what `n` parent links reach, the frontier is the layer `n`, each
entry below the child that found it, and the commits emitted are the layers before `n`, in
order. The layer `n + 1` is then what the layer `n` reaches in one link and was not seen, the
library's `nearest_succ_iff`.

The walk needs the head's generation to sit below `u64::MAX`, which it uses as the generation
of the head's child, and no more rounds than the `u32` depth counter holds; the first fails
for a head at generation `u64::MAX`. Over such histories the cache of
`reachable_nodes_within_depth` only ever holds the walks it stands for. -/
namespace Lix.CommitGraph
open KeyCodec TrackedState SortedWalk ExceptSpec Ancestry LayeredSearch

/-- The order the walk returns commits in: depth first, then commit id. -/
def ReachableCommitGraphNode.key (r : ReachableCommitGraphNode) : ℕ × CommitId :=
  (r.depth, r.commit.commitId)

/-- What the walk needs of the history below the head: every commit reachable from it is
stored, and each of their parents sits at a lower generation. -/
structure ReachableBelow (reader : CommitGraphStoreReader) (headCommitId : CommitId) : Prop where
  stored : ∀ c, Ancestor reader.parents headCommitId c → (reader.loadNode c).isSome
  generation_lt : ∀ c, Ancestor reader.parents headCommitId c →
    ∀ p ∈ reader.parents c, reader.generation p < reader.generation c

/-- A commit as the walk should return it: stored, at the length of its shortest parent path
from the head. -/
def NearestCommit (reader : CommitGraphStoreReader) (headCommitId : CommitId)
    (r : ReachableCommitGraphNode) : Prop :=
  reader.loadNode r.commit.commitId = some r.commit ∧
    Nearest reader.parents headCommitId r.commit.commitId r.depth

section Keys

theorem compare_fst_of_lt {x y : CommitId × ℕ} (h : compare x y = .lt) (hne : x.1 ≠ y.1) :
    compare x.1 y.1 = .lt := by
  change (compare x.1 y.1).then (compare x.2 y.2) = .lt at h
  cases hc : compare x.1 y.1 with
  | lt => rfl
  | eq => exact absurd (Std.LawfulEqOrd.eq_of_compare hc) hne
  | gt => rw [hc] at h; cases h

theorem compare_key_same_depth (n : ℕ) (a b : CommitId) :
    compare (n, a) (n, b) = compare a b := by
  change (compare n n).then (compare a b) = _
  rw [Std.ReflOrd.compare_self]
  rfl

/-- Strictly sorted keys leave one entry per commit, as a commit has one nearest depth. -/
theorem nodup_of_nearestCommit {reader : CommitGraphStoreReader} {headCommitId : CommitId}
    {nodes : List ReachableCommitGraphNode} (hsorted : StrictlySorted ReachableCommitGraphNode.key nodes)
    (hnear : ∀ r ∈ nodes, NearestCommit reader headCommitId r) :
    (nodes.map (·.commit.commitId)).Nodup := by
  rw [List.Nodup, List.pairwise_map]
  refine hsorted.imp_of_mem fun hr hs hlt hid => ?_
  have hdepth := (hnear _ hr).2.unique (hid ▸ (hnear _ hs).2)
  rw [ReachableCommitGraphNode.key, ReachableCommitGraphNode.key, hdepth, hid,
    Std.ReflOrd.compare_self] at hlt
  cases hlt

theorem length_le_of_nearestCommit {reader : CommitGraphStoreReader} {headCommitId : CommitId}
    {nodes : List ReachableCommitGraphNode} (hsorted : StrictlySorted ReachableCommitGraphNode.key nodes)
    (hnear : ∀ r ∈ nodes, NearestCommit reader headCommitId r) :
    nodes.length ≤ reader.nodes.length := by
  have hstored : ∀ c ∈ nodes.map (·.commit.commitId), c ∈ reader.nodes.map (·.commitId) := by
    intro c hc
    obtain ⟨r, hr, rfl⟩ := List.mem_map.mp hc
    exact CommitGraphStoreReader.mem_ids_of_loadNode (hnear r hr).1
  have hle := ((nodup_of_nearestCommit hsorted hnear).subperm hstored).length_le
  rwa [List.length_map, List.length_map] at hle

end Keys

section Invariant

variable {reader : CommitGraphStoreReader} {headCommitId : CommitId}

/-- The walk after `n` rounds: the seen set is what `n` links reach, the frontier the layer `n`
once each, every entry below the child that found it, and the commits emitted are the layers
before `n`, in order. -/
structure WalkInv (reader : CommitGraphStoreReader) (headCommitId : CommitId) (n : ℕ)
    (walk : ReachableWalk) (commits : List ReachableCommitGraphNode) : Prop where
  depth_eq : walk.depth = n
  seen_iff : ∀ c, c ∈ walk.seen ↔ ReachWithin reader.parents n headCommitId c
  frontier_iff : ∀ c, c ∈ walk.frontier.map Prod.fst ↔ Nearest reader.parents headCommitId c n
  frontier_nodup : (walk.frontier.map Prod.fst).Nodup
  below : ∀ e ∈ walk.frontier, reader.generation e.1 < e.2
  commits_iff : ∀ r, r ∈ commits ↔ NearestCommit reader headCommitId r ∧ r.depth < n
  sorted : StrictlySorted ReachableCommitGraphNode.key commits
  count : n ≤ commits.length

theorem walkInv_new (hhead : reader.generation headCommitId < u64Max) :
    WalkInv reader headCommitId 0 (ReachableWalk.new headCommitId) [] where
  depth_eq := rfl
  seen_iff := by simp [ReachableWalk.new]
  frontier_iff := by simp [ReachableWalk.new]
  frontier_nodup := by simp [ReachableWalk.new]
  below := by simpa [ReachableWalk.new] using hhead
  commits_iff := by simp
  sorted := List.Pairwise.nil
  count := le_rfl

theorem WalkInv.length_le {n : ℕ} {walk : ReachableWalk} {commits : List ReachableCommitGraphNode}
    (hinv : WalkInv reader headCommitId n walk commits) : commits.length ≤ reader.nodes.length :=
  length_le_of_nearestCommit hinv.sorted fun r hr => ((hinv.commits_iff r).mp hr).1

section Step

variable {n : ℕ} {walk walk' : ReachableWalk} {commits : List ReachableCommitGraphNode}
  {layer : ReachableLayer} (hinv : WalkInv reader headCommitId n walk commits)
  (h : walk.nextLayer reader = .ok (some (layer, walk')))
include hinv h

/-- Every commit of the layer `n` is loaded by the round. -/
theorem WalkInv.exists_mem_layer {c : CommitId} (hnear : Nearest reader.parents headCommitId c n) :
    ∃ node ∈ layer.commits, node.commitId = c := by
  have hmem : c ∈ layer.commits.map (·.commitId) :=
    (nextLayer_ids_perm h).symm.subset ((hinv.frontier_iff c).mpr hnear)
  exact List.mem_map.mp hmem

/-- The commits a round loads are the stored commits of the layer `n`. -/
theorem WalkInv.mem_layer_iff (node : CommitGraphNode) :
    node ∈ layer.commits ↔
      reader.loadNode node.commitId = some node ∧
        Nearest reader.parents headCommitId node.commitId n := by
  obtain ⟨-, -, -, hscan⟩ := nextLayer_eq_some h
  constructor
  · intro hnode
    exact ⟨hscan.loadNode_of_mem hnode, (hinv.frontier_iff _).mp
      ((nextLayer_ids_perm h).subset (List.mem_map_of_mem hnode))⟩
  · rintro ⟨hload, hnear⟩
    obtain ⟨node', hnode', hid⟩ := hinv.exists_mem_layer h hnear
    have hload' := hscan.loadNode_of_mem hnode'
    rw [hid, hload] at hload'
    cases hload'
    exact hnode'

/-- A round loads its layer in commit-id order. -/
theorem WalkInv.layer_sorted : StrictlySorted CommitGraphNode.commitId layer.commits := by
  obtain ⟨-, -, -, hscan⟩ := nextLayer_eq_some h
  have hnodup : (walk.frontier.map id).Nodup := by
    rw [List.map_id]
    exact List.Nodup.of_map Prod.fst hinv.frontier_nodup
  have hsorted := strictlySorted_sortByKey id hnodup
  have hids : layer.commits.map (·.commitId) = (sortByKey id walk.frontier).map Prod.fst :=
    hscan.map_commitId
  have hidsNodup : ((sortByKey id walk.frontier).map Prod.fst).Nodup :=
    ((sortByKey_perm id walk.frontier).map Prod.fst).nodup_iff.mpr hinv.frontier_nodup
  have hpair : (layer.commits.map (·.commitId)).Pairwise (fun a b => compare a b = .lt) := by
    rw [hids, List.pairwise_map]
    rw [List.Nodup, List.pairwise_map] at hidsNodup
    exact (hsorted.and hidsNodup).imp fun ⟨hlt, hne⟩ => compare_fst_of_lt hlt hne
  exact List.pairwise_map.mp hpair

/-- The parents a round queues are the layer `n + 1`. -/
theorem WalkInv.frontier_step (c : CommitId) :
    c ∈ walk'.frontier.map Prod.fst ↔ Nearest reader.parents headCommitId c (n + 1) := by
  obtain ⟨-, -, -, hscan⟩ := nextLayer_eq_some h
  rw [hscan.next_iff, nearest_succ_iff, hinv.seen_iff]
  refine and_congr_left' ⟨?_, ?_⟩
  · rintro ⟨node, hnode, hc⟩
    obtain ⟨hload, hnear⟩ := (hinv.mem_layer_iff h node).mp hnode
    exact ⟨node.commitId, hnear, by rwa [CommitGraphStoreReader.parents_of_loadNode hload]⟩
  · rintro ⟨x, hnear, hc⟩
    obtain ⟨node, hnode, rfl⟩ := hinv.exists_mem_layer h hnear
    obtain ⟨hload, -⟩ := (hinv.mem_layer_iff h node).mp hnode
    exact ⟨node, hnode, by rwa [CommitGraphStoreReader.parents_of_loadNode hload] at hc⟩

/-- One round keeps the invariant, one layer further, and emits the layer `n` at depth `n`. -/
theorem WalkInv.step (hbelow : ReachableBelow reader headCommitId)
    (hlimit : reader.nodes.length ≤ u32Max) :
    layer.depth = n ∧ layer.commits ≠ [] ∧
      WalkInv reader headCommitId (n + 1) walk'
        (commits ++ layer.commits.map fun commit => ⟨commit, n⟩) := by
  obtain ⟨hne, hdepth, hdepth', hscan⟩ := nextLayer_eq_some h
  rw [hinv.depth_eq] at hdepth hdepth'
  have hlayerNe : layer.commits ≠ [] := by
    obtain ⟨e, he⟩ := List.exists_mem_of_ne_nil _ hne
    obtain ⟨node, hnode, -⟩ :=
      hinv.exists_mem_layer h ((hinv.frontier_iff e.1).mp (List.mem_map_of_mem he))
    exact List.ne_nil_of_mem hnode
  have hcommits : ∀ r, r ∈ commits ++ layer.commits.map (fun commit => (⟨commit, n⟩ : ReachableCommitGraphNode)) ↔
      NearestCommit reader headCommitId r ∧ r.depth < n + 1 := by
    intro r
    rw [List.mem_append, hinv.commits_iff, List.mem_map]
    constructor
    · rintro (⟨hr, hlt⟩ | ⟨node, hnode, rfl⟩)
      · exact ⟨hr, by omega⟩
      · exact ⟨(hinv.mem_layer_iff h node).mp hnode, Nat.lt_succ_self n⟩
    · rintro ⟨hr, hlt⟩
      rcases Nat.lt_succ_iff_lt_or_eq.mp hlt with hlt | rfl
      · exact Or.inl ⟨hr, hlt⟩
      · exact Or.inr ⟨r.commit, (hinv.mem_layer_iff h r.commit).mpr hr, rfl⟩
  have hsorted : StrictlySorted ReachableCommitGraphNode.key
      (commits ++ layer.commits.map fun commit => ⟨commit, n⟩) := by
    unfold StrictlySorted
    rw [List.pairwise_append, List.pairwise_map]
    refine ⟨hinv.sorted, (hinv.layer_sorted h).imp fun hlt => ?_, fun r hr s hs => ?_⟩
    · rwa [ReachableCommitGraphNode.key, ReachableCommitGraphNode.key, compare_key_same_depth]
    · obtain ⟨node, -, rfl⟩ := List.mem_map.mp hs
      exact compare_key_of_generation_lt _ _ ((hinv.commits_iff r).mp hr).2
  have hcount : n + 1 ≤
      (commits ++ layer.commits.map fun commit => (⟨commit, n⟩ : ReachableCommitGraphNode)).length := by
    have hpos := List.length_pos_iff.mpr hlayerNe
    have := hinv.count
    simp only [List.length_append, List.length_map]
    omega
  have hbound := length_le_of_nearestCommit hsorted fun r hr => ((hcommits r).mp hr).1
  refine ⟨hdepth, hlayerNe, ⟨?_, fun c => ?_, hinv.frontier_step h, hscan.next_nodup, ?_,
    hcommits, hsorted, hcount⟩⟩
  · rw [hdepth']
    exact min_eq_left (by omega)
  · rw [hscan.seen_iff, hinv.seen_iff, hinv.frontier_step h, reachWithin_succ_iff]
  · intro e he
    obtain ⟨node, hnode, hp, hgen⟩ := hscan.tags e he
    obtain ⟨hload, hnear⟩ := (hinv.mem_layer_iff h node).mp hnode
    have hlt := hbelow.generation_lt node.commitId hnear.ancestor e.1
      (by rwa [CommitGraphStoreReader.parents_of_loadNode hload])
    rwa [CommitGraphStoreReader.generation_of_loadNode hload, ← hgen] at hlt

end Step

/-- Over a stored, ranked history a round with a frontier finds its layer. -/
theorem WalkInv.nextLayer_isOk {n : ℕ} {walk : ReachableWalk}
    {commits : List ReachableCommitGraphNode} (hinv : WalkInv reader headCommitId n walk commits)
    (hbelow : ReachableBelow reader headCommitId) (hne : walk.frontier ≠ []) :
    ∃ layer walk', walk.nextLayer reader = .ok (some (layer, walk')) := by
  apply Lix.CommitGraph.nextLayer_isOk hne
  intro e he
  have hnear := (hinv.frontier_iff e.1).mp (List.mem_map_of_mem he)
  obtain ⟨node, hload⟩ := Option.isSome_iff_exists.mp (hbelow.stored e.1 hnear.ancestor)
  refine ⟨node, hload, ?_⟩
  rw [← CommitGraphStoreReader.generation_of_loadNode hload]
  exact hinv.below e he

/-- Once the frontier is empty, every commit's layer has been emitted. -/
theorem WalkInv.depth_lt_of_empty {n : ℕ} {walk : ReachableWalk}
    {commits : List ReachableCommitGraphNode} (hinv : WalkInv reader headCommitId n walk commits)
    (hempty : walk.frontier = []) {r : ReachableCommitGraphNode}
    (hr : NearestCommit reader headCommitId r) : r.depth < n := by
  have hnone : ∀ c, ¬Nearest reader.parents headCommitId c n := by
    intro c hc
    have hmem := (hinv.frontier_iff c).mpr hc
    rw [hempty] at hmem
    cases hmem
  by_contra hle
  exact not_nearest_of_le hnone (by omega) _ hr.2

end Invariant

section Run

variable {reader : CommitGraphStoreReader} {headCommitId : CommitId}

/-- A run of rounds from the invariant after `n` rounds, with a bound not yet passed, returns
the commits within the bound, in order. The induction is on the fuel; the fuel bound holds
because each round emits at least one commit and the commits emitted are distinct stored
ones. -/
theorem walkLayers_depthBound (hbelow : ReachableBelow reader headCommitId)
    (hlimit : reader.nodes.length ≤ u32Max) (maxDepth : Option ℕ) (fuel : ℕ) {n : ℕ}
    {walk : ReachableWalk} {commits : List ReachableCommitGraphNode}
    (hinv : WalkInv reader headCommitId n walk commits)
    (hfuel : reader.nodes.length < commits.length + fuel) (hn : ∀ m ∈ maxDepth, n ≤ m) :
    ∃ nodes, walkLayers reader (fun depth _ => maxDepth.any fun maxDepth => maxDepth ≤ depth)
        fuel walk commits = some (.ok nodes) ∧
      (∀ r, r ∈ nodes ↔ NearestCommit reader headCommitId r ∧ ∀ m ∈ maxDepth, r.depth ≤ m) ∧
      StrictlySorted ReachableCommitGraphNode.key nodes := by
  induction fuel generalizing n walk commits with
  | zero =>
    have := hinv.length_le
    omega
  | succ fuel ih =>
    unfold walkLayers
    by_cases hempty : walk.frontier = []
    · -- the last round: every layer has been emitted
      rw [nextLayer_eq_none.mpr hempty]
      refine ⟨commits, rfl, fun r => ?_, hinv.sorted⟩
      rw [hinv.commits_iff]
      constructor
      · rintro ⟨hr, hlt⟩
        exact ⟨hr, fun m hm => by have := hn m hm; omega⟩
      · rintro ⟨hr, -⟩
        exact ⟨hr, hinv.depth_lt_of_empty hempty hr⟩
    · obtain ⟨layer, walk', hnext⟩ := hinv.nextLayer_isOk hbelow hempty
      obtain ⟨hdepth, hlayerNe, hinv'⟩ := hinv.step hnext hbelow hlimit
      have hpos := List.length_pos_iff.mpr hlayerNe
      rw [hnext]
      dsimp only
      rw [hdepth]
      split
      · -- the layer at the bound: the walk stops with the layers through it
        rename_i hstop
        refine ⟨_, rfl, fun r => ?_, hinv'.sorted⟩
        rw [hinv'.commits_iff]
        rcases maxDepth with _ | m
        · cases hstop
        · have hmn : m ≤ n := by simpa using hstop
          obtain rfl : m = n := le_antisymm hmn (hn m rfl)
          simp only [Option.mem_def, Option.some.injEq, forall_eq', Nat.lt_succ_iff]
      · rename_i hstop
        refine ih hinv' (by simp only [List.length_append, List.length_map]; omega) ?_
        rcases maxDepth with _ | m
        · simp
        · have hnm : ¬m ≤ n := by simpa using hstop
          simp only [Option.mem_def, Option.some.injEq, forall_eq']
          omega

/-- Over a stored, ranked history from a head below `u64::MAX`, in a store the `u32` depth
counter can count, `walk_reachable_nodes` returns each stored commit within the bound at its
nearest depth, in `(depth, commit_id)` order. -/
theorem walkReachableNodes_eq_ok (hbelow : ReachableBelow reader headCommitId)
    (hhead : reader.generation headCommitId < u64Max) (hlimit : reader.nodes.length ≤ u32Max)
    (maxDepth : Option ℕ) :
    ∃ nodes, walkReachableNodes reader headCommitId maxDepth = .ok nodes ∧
      (∀ r, r ∈ nodes ↔ NearestCommit reader headCommitId r ∧ ∀ m ∈ maxDepth, r.depth ≤ m) ∧
      StrictlySorted ReachableCommitGraphNode.key nodes := by
  obtain ⟨nodes, hrun, hmem, hsorted⟩ :=
    walkLayers_depthBound hbelow hlimit maxDepth (reader.nodes.length + 1) (walkInv_new hhead)
      (by simp) fun m _ => Nat.zero_le m
  refine ⟨nodes, ?_, hmem, hsorted⟩
  unfold walkReachableNodes
  exact Option.get_of_eq_some _ hrun

theorem depth_le_of_compare_key {r s : ReachableCommitGraphNode}
    (h : compare r.key s.key = .lt) : r.depth ≤ s.depth := by
  change (compare r.depth s.depth).then (compare r.commit.commitId s.commit.commitId) = .lt at h
  by_contra hgt
  rw [Nat.compare_eq_gt.mpr (by omega)] at h
  cases h

/-- Cutting a list at the first element that fails a test keeps exactly the elements that pass
it, when passing is inherited by every earlier element. -/
theorem mem_takeWhile_iff_of_pairwise {α : Type*} {p : α → Bool} {l : List α}
    (h : l.Pairwise fun a b => p b = true → p a = true) {x : α} :
    x ∈ l.takeWhile p ↔ x ∈ l ∧ p x = true := by
  induction l with
  | nil => simp
  | cons a l ih =>
    obtain ⟨ha, hl⟩ := List.pairwise_cons.mp h
    by_cases hpa : p a = true
    · rw [List.takeWhile_cons_of_pos hpa, List.mem_cons, List.mem_cons, ih hl]
      constructor
      · rintro (rfl | ⟨hx, hpx⟩)
        · exact ⟨Or.inl rfl, hpa⟩
        · exact ⟨Or.inr hx, hpx⟩
      · rintro ⟨rfl | hx, hpx⟩
        · exact Or.inl rfl
        · exact Or.inr ⟨hx, hpx⟩
    · rw [List.takeWhile_cons_of_neg hpa]
      simp only [List.not_mem_nil, List.mem_cons, false_iff, not_and]
      rintro (rfl | hx) hpx
      · exact hpa hpx
      · exact hpa (ha x hx hpx)

/-- A bounded walk is the unbounded one cut after the layer at the bound. -/
theorem walkReachableNodes_some_eq (hbelow : ReachableBelow reader headCommitId)
    (hhead : reader.generation headCommitId < u64Max) (hlimit : reader.nodes.length ≤ u32Max)
    (m : ℕ) :
    walkReachableNodes reader headCommitId (some m) =
      (walkReachableNodes reader headCommitId none).map
        (List.takeWhile fun r => decide (r.depth ≤ m)) := by
  obtain ⟨full, hfull, hfullMem, hfullSorted⟩ := walkReachableNodes_eq_ok hbelow hhead hlimit none
  obtain ⟨nodes, hnodes, hmem, hsorted⟩ := walkReachableNodes_eq_ok hbelow hhead hlimit (some m)
  rw [hfull, hnodes, map_ok]
  congr 1
  have hcut : full.Pairwise fun a b => decide (b.depth ≤ m) = true → decide (a.depth ≤ m) = true :=
    hfullSorted.imp fun hlt hb => by
      have := depth_le_of_compare_key hlt
      simp only [decide_eq_true_eq] at hb ⊢
      omega
  apply StrictlySorted.eq_of_mem_iff ReachableCommitGraphNode.key hsorted
    (hfullSorted.sublist (List.takeWhile_sublist _))
  intro r
  rw [hmem, mem_takeWhile_iff_of_pairwise hcut, hfullMem]
  simp

end Run

section Limited

variable {reader : CommitGraphStoreReader}

/-- The commits emitted so far stay at the front of what the loop returns. -/
theorem walkLayers_extends {stop : ℕ → List ReachableCommitGraphNode → Bool} {fuel : ℕ}
    {walk : ReachableWalk} {commits nodes : List ReachableCommitGraphNode}
    (h : walkLayers reader stop fuel walk commits = some (.ok nodes)) : commits <+: nodes := by
  induction fuel generalizing walk commits with
  | zero => cases h
  | succ fuel ih =>
    unfold walkLayers at h
    rcases hnext : walk.nextLayer reader with e | _ | ⟨layer, walk'⟩ <;> rw [hnext] at h <;>
      dsimp only at h
    · cases h
    · cases h
      exact List.prefix_refl _
    · split at h
      · cases h
        exact List.prefix_append _ _
      · exact (List.prefix_append _ _).trans (ih h)

end Limited

section Cache

variable {reader : CommitGraphStoreReader}

/-- Every answer the cache holds is the walk it stands for. -/
def CacheSound (reader : CommitGraphStoreReader) (cache : ReachableNodesCache) : Prop :=
  ∀ key nodes, cache.get key = some nodes → walkReachableNodes reader key.1 key.2 = .ok nodes

theorem cacheSound_empty : CacheSound reader .empty := by
  intro _ _ h
  cases h

theorem CacheSound.insert {cache : ReachableNodesCache} (hcache : CacheSound reader cache)
    {key : CommitId × Option ℕ} {nodes : List ReachableCommitGraphNode}
    (hwalk : walkReachableNodes reader key.1 key.2 = .ok nodes) :
    CacheSound reader (cache.insert key nodes) := by
  intro key' nodes' hget
  unfold ReachableNodesCache.insert at hget
  dsimp only at hget
  by_cases hk : key' = key
  · subst hk
    rw [Function.update_self, Option.some.injEq] at hget
    rwa [← hget]
  · rw [Function.update_of_ne hk] at hget
    exact hcache key' nodes' hget

/-- One request keeps the cache sound and answers with the walk. -/
theorem reachableNodesWithinDepth_eq_ok {cache : ReachableNodesCache} {headCommitId : CommitId}
    (hcache : CacheSound reader cache) (hbelow : ReachableBelow reader headCommitId)
    (hhead : reader.generation headCommitId < u64Max) (hlimit : reader.nodes.length ≤ u32Max)
    (maxDepth : Option ℕ) :
    ∃ nodes cache', reachableNodesWithinDepth reader cache headCommitId maxDepth = .ok (nodes, cache') ∧
      walkReachableNodes reader headCommitId maxDepth = .ok nodes ∧ CacheSound reader cache' := by
  obtain ⟨nodes, hwalk, -⟩ := walkReachableNodes_eq_ok hbelow hhead hlimit maxDepth
  unfold reachableNodesWithinDepth
  cases hget : cache.get (headCommitId, maxDepth) with
  | some cached =>
    exact ⟨cached, cache, rfl, hcache _ _ hget, hcache⟩
  | none =>
    have hnew : ∃ nodes cache', (do
          let nodes ← walkReachableNodes reader headCommitId maxDepth
          pure (nodes, cache.insert (headCommitId, maxDepth) nodes) :
          Except LixError (List ReachableCommitGraphNode × ReachableNodesCache)) =
          .ok (nodes, cache') ∧
        walkReachableNodes reader headCommitId maxDepth = .ok nodes ∧ CacheSound reader cache' :=
      ⟨nodes, _, by rw [hwalk]; rfl, hwalk, hcache.insert hwalk⟩
    rcases maxDepth with _ | m
    · exact hnew
    · cases hfull : cache.get (headCommitId, none) with
      | none => exact hnew
      | some full =>
        have hcut := walkReachableNodes_some_eq hbelow hhead hlimit m
        rw [hcache _ _ hfull, map_ok] at hcut
        exact ⟨_, _, rfl, hcut, hcache.insert hcut⟩

/-- The caches that requests for heads satisfying `heads` lead to, from an empty one. -/
inductive CacheReachable (reader : CommitGraphStoreReader) (heads : CommitId → Prop) :
    ReachableNodesCache → Prop
  | empty : CacheReachable reader heads .empty
  | request {cache cache' : ReachableNodesCache} {headCommitId : CommitId} {maxDepth : Option ℕ}
      {nodes : List ReachableCommitGraphNode} :
      CacheReachable reader heads cache → heads headCommitId →
      reachableNodesWithinDepth reader cache headCommitId maxDepth = .ok (nodes, cache') →
      CacheReachable reader heads cache'

section Heads

variable {heads : CommitId → Prop}
  (hheads : ∀ c, heads c → ReachableBelow reader c ∧ reader.generation c < u64Max)
  (hlimit : reader.nodes.length ≤ u32Max)
include hheads hlimit

theorem CacheReachable.sound {cache : ReachableNodesCache} (h : CacheReachable reader heads cache) :
    CacheSound reader cache := by
  induction h with
  | empty => exact cacheSound_empty
  | request _ hhead hreq ih =>
    obtain ⟨_, _, hreq', -, hsound⟩ :=
      reachableNodesWithinDepth_eq_ok ih (hheads _ hhead).1 (hheads _ hhead).2 hlimit _
    rw [hreq, Except.ok.injEq, Prod.mk.injEq] at hreq'
    rwa [hreq'.2]

end Heads

end Cache

section Result

variable {reader : CommitGraphStoreReader} {headCommitId : CommitId}

theorem reachableBelow_of_parentsBelow (hwf : ParentsBelow reader)
    (hhead : (reader.loadNode headCommitId).isSome) : ReachableBelow reader headCommitId :=
  ⟨fun _ h => loaded_of_ancestor hwf hhead h,
    fun a _ p hp => generation_lt_of_mem_parents hwf a p hp⟩

/-- `walk_reachable_nodes` returns every commit reachable from the head once, at the length of
its shortest parent path, in `(depth, commit_id)` order and within the bound, and the bounded
walk is the unbounded one cut after the bound. -/
theorem walkReachableNodes_breadthFirst (hbelow : ReachableBelow reader headCommitId)
    (hhead : reader.generation headCommitId < u64Max) (hlimit : reader.nodes.length ≤ u32Max)
    (maxDepth : Option ℕ) :
    ∃ nodes, walkReachableNodes reader headCommitId maxDepth = .ok nodes ∧
      (∀ r ∈ nodes, reader.loadNode r.commit.commitId = some r.commit ∧
        Nearest reader.parents headCommitId r.commit.commitId r.depth ∧
        ∀ m ∈ maxDepth, r.depth ≤ m) ∧
      (∀ c, Ancestor reader.parents headCommitId c → ∃ n, Nearest reader.parents headCommitId c n ∧
        ((∀ m ∈ maxDepth, n ≤ m) → ∃ r ∈ nodes, r.commit.commitId = c ∧ r.depth = n)) ∧
      (nodes.map (·.commit.commitId)).Nodup ∧
      StrictlySorted ReachableCommitGraphNode.key nodes ∧
      ∀ m, walkReachableNodes reader headCommitId (some m) =
        (walkReachableNodes reader headCommitId none).map
          (List.takeWhile fun r => decide (r.depth ≤ m)) := by
  obtain ⟨nodes, hok, hmem, hsorted⟩ := walkReachableNodes_eq_ok hbelow hhead hlimit maxDepth
  refine ⟨nodes, hok, fun r hr => ?_, fun c hc => ?_,
    nodup_of_nearestCommit hsorted fun r hr => ((hmem r).mp hr).1, hsorted,
    walkReachableNodes_some_eq hbelow hhead hlimit⟩
  · obtain ⟨⟨hload, hnear⟩, hbound⟩ := (hmem r).mp hr
    exact ⟨hload, hnear, hbound⟩
  · -- a reachable commit is stored, so it is returned at its nearest depth
    obtain ⟨n, hnear⟩ := exists_nearest hc
    refine ⟨n, hnear, fun hn => ?_⟩
    obtain ⟨node, hload⟩ := Option.isSome_iff_exists.mp (hbelow.stored c hc)
    have hid : node.commitId = c := (CommitGraphStoreReader.mem_of_loadNode hload).2
    exact ⟨⟨node, n⟩, (hmem _).mpr ⟨⟨by rwa [hid], by rwa [hid]⟩, hn⟩, hid, rfl⟩

/-- A history with two paths of different lengths to the root: the head merges a merge commit
and the root itself. -/
def diamondReader : CommitGraphStoreReader where
  nodes := [⟨sampleCommitId 0, 0, [], sampleCommitId 0, 0⟩,
    ⟨sampleCommitId 1, 1, [sampleCommitId 0], sampleCommitId 0, 1⟩,
    ⟨sampleCommitId 2, 1, [sampleCommitId 0], sampleCommitId 0, 1⟩,
    ⟨sampleCommitId 3, 2, [sampleCommitId 1, sampleCommitId 2], sampleCommitId 3, 0⟩,
    ⟨sampleCommitId 4, 3, [sampleCommitId 3, sampleCommitId 0], sampleCommitId 4, 0⟩]
  decoded := by decide

theorem walkReachableNodes_breadthFirst_diamond :
    ∃ nodes, walkReachableNodes diamondReader (sampleCommitId 4) none = .ok nodes ∧
      (nodes.map (·.commit.commitId)).Nodup ∧
      StrictlySorted ReachableCommitGraphNode.key nodes ∧
      ∀ r ∈ nodes, Nearest diamondReader.parents (sampleCommitId 4) r.commit.commitId r.depth := by
  obtain ⟨nodes, hok, hmem, -, hnodup, hsorted, -⟩ :=
    @walkReachableNodes_breadthFirst diamondReader (sampleCommitId 4)
      (reachableBelow_of_parentsBelow (by decide) (by decide)) (by decide) (by decide) none
  exact ⟨nodes, hok, hnodup, hsorted, fun r hr => (hmem r hr).2.1⟩

/-- A head at generation `u64::MAX` or above is reported as a cycle: the walk counts it as
found by a child of generation `u64::MAX`. -/
theorem walkReachableNodes_of_head_ge {node : CommitGraphNode}
    (hload : reader.loadNode headCommitId = some node) (hge : u64Max ≤ node.generation)
    (maxDepth : Option ℕ) :
    walkReachableNodes reader headCommitId maxDepth = .error (cycleDetected headCommitId) := by
  have hfirst : (ReachableWalk.new headCommitId).nextLayer reader =
      .error (cycleDetected headCommitId) := by
    unfold ReachableWalk.nextLayer ReachableWalk.new
    simp only [List.isEmpty_cons, Bool.false_eq_true, if_false, sortByKey, List.mergeSort_singleton,
      List.foldlM_cons, List.foldlM_nil]
    simp [scanEntry, hload, hge, bind, Except.bind]
  unfold walkReachableNodes
  apply Option.get_of_eq_some
  rw [walkLayers, hfirst]

/-- A store that sparse-parent sync can write: a root, a commit above it, and a head at
generation `u64::MAX` over both. When the head arrived with only the root known, sync asked
only that its generation be above the root's. -/
def sparseSyncReader : CommitGraphStoreReader where
  nodes := [⟨sampleCommitId 0, 0, [], sampleCommitId 0, 0⟩,
    ⟨sampleCommitId 1, 1, [sampleCommitId 0], sampleCommitId 0, 1⟩,
    ⟨sampleCommitId 2, u64Max, [sampleCommitId 0, sampleCommitId 1], sampleCommitId 2, 0⟩]
  decoded := by decide

theorem walkReachableNodes_maxGenerationHead :
    ParentsBelow sparseSyncReader ∧
      walkReachableNodes sparseSyncReader (sampleCommitId 2) none =
        .error (cycleDetected (sampleCommitId 2)) :=
  ⟨by decide, walkReachableNodes_of_head_ge (show sparseSyncReader.loadNode (sampleCommitId 2) =
      some ⟨sampleCommitId 2, u64Max, [sampleCommitId 0, sampleCommitId 1], sampleCommitId 2, 0⟩
      by decide) le_rfl none⟩

end Result

end Lix.CommitGraph
