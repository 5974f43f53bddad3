import Lix.CommitGraphContext
import Lix.OrderedSet
import Lix.ExceptSpec

/-! `walk_reachable_nodes` of `commit_graph/walker.rs`: a breadth-first walk down the parent
links from a head, one layer per round. A round sorts the frontier, loads its commits, checks
that each one sits below the child that found it, and queues the parents not seen before; the
walk stops at an empty frontier, or after the layer at `max_depth`. `reachable_nodes_limited`
runs the same rounds until enough commits are found, and `reachable_nodes_within_depth` of
`commit_graph/context.rs` answers from a cache of walks, cutting a bounded answer out of a
cached unbounded one.

The head is found by a child of generation `u64::MAX`, and the depth counter is a `u32` that
saturates; both bounds are kept. The walk always ends: every round but the last emits stored
commits not emitted before. -/
namespace Lix.CommitGraph
open KeyCodec TrackedState SortedWalk ExceptSpec

/-- `ReachableCommitGraphNode`: a commit and its depth below the head. -/
structure ReachableCommitGraphNode where
  commit : CommitGraphNode
  depth : ℕ
  deriving DecidableEq, Repr

/-- `u64::MAX`, the generation of the child the head counts as found by. -/
def u64Max : ℕ := 2 ^ 64 - 1

/-- `u32::MAX`, where `depth.saturating_add(1)` stops. -/
def u32Max : ℕ := 2 ^ 32 - 1

/-- The frontier's `(commit_id, child_generation)` entries sort by commit id first, as Rust
tuples do. -/
instance : Ord (CommitId × ℕ) := lexOrd

section Walk

/-- `ReachableLayer`. -/
structure ReachableLayer where
  depth : ℕ
  commits : List CommitGraphNode

/-- `ReachableWalk`: the commits seen so far, the next frontier with the generation of the
child that found each entry, and the next layer's depth. -/
structure ReachableWalk where
  seen : OrderedSet CommitId
  frontier : List (CommitId × ℕ)
  depth : ℕ

def ReachableWalk.new (headCommitId : CommitId) : ReachableWalk :=
  ⟨OrderedSet.empty.insert headCommitId, [(headCommitId, u64Max)], 0⟩

/-- The state of the loop over one layer's entries. -/
structure LayerScan where
  seen : OrderedSet CommitId
  nextFrontier : List (CommitId × ℕ)
  commits : List CommitGraphNode

/-- `self.seen.insert(parent)`: a parent not seen before joins the next frontier, with the
generation of the commit that found it. -/
def discoverParent (generation : ℕ) (scan : LayerScan) (parentCommitId : CommitId) : LayerScan :=
  if parentCommitId ∈ scan.seen then scan
  else { scan with seen := scan.seen.insert parentCommitId,
                   nextFrontier := scan.nextFrontier ++ [(parentCommitId, generation)] }

def cycleDetected (commitId : CommitId) : LixError :=
  ⟨"LIX_ERROR_UNKNOWN", "commit_graph cycle detected at commit '" ++ commitId.toString ++
    "': it does not have a lower generation than the child that reaches it"⟩

/-- One entry of the layer loop: the commit must be stored and sit below the child that found
it; its parents not seen yet join the next frontier. -/
def scanEntry (reader : CommitGraphStoreReader) (scan : LayerScan) (entry : CommitId × ℕ) :
    Except LixError LayerScan :=
  match reader.loadNode entry.1 with
  | none => .error (missingCommitGraphError entry.1)
  | some node =>
    if node.generation ≥ entry.2 then .error (cycleDetected entry.1)
    else
      let scan := node.parentCommitIds.foldl (discoverParent node.generation) scan
      .ok { scan with commits := scan.commits ++ [node] }

/-- `ReachableWalk::next_layer`: `none` once the frontier is empty. -/
def ReachableWalk.nextLayer (reader : CommitGraphStoreReader) (walk : ReachableWalk) :
    Except LixError (Option (ReachableLayer × ReachableWalk)) :=
  if walk.frontier.isEmpty then .ok none
  else do
    let frontier := sortByKey id walk.frontier
    let scan ← frontier.foldlM (scanEntry reader) ⟨walk.seen, [], []⟩
    pure (some (⟨walk.depth, scan.commits⟩,
      ⟨scan.seen, scan.nextFrontier, min (walk.depth + 1) u32Max⟩))

/-- The `while let Some(layer) = walk.next_layer(..)` loop of `walk_reachable_nodes` and
`reachable_nodes_limited`: append each layer's commits at its depth, and break once `stop`
holds of the layer's depth and the commits so far. `none` only when `fuel` rounds were not
enough, which `walkLayers_isSome` rules out for one round per stored commit and one more. -/
def walkLayers (reader : CommitGraphStoreReader) (stop : ℕ → List ReachableCommitGraphNode → Bool) :
    ℕ → ReachableWalk → List ReachableCommitGraphNode →
      Option (Except LixError (List ReachableCommitGraphNode))
  | 0, _, _ => none
  | fuel + 1, walk, commits =>
    match walk.nextLayer reader with
    | .error e => some (.error e)
    | .ok none => some (.ok commits)
    | .ok (some (layer, walk)) =>
      let commits := commits ++ layer.commits.map fun commit => ⟨commit, layer.depth⟩
      if stop layer.depth commits then some (.ok commits)
      else walkLayers reader stop fuel walk commits

end Walk

section Scan

variable {reader : CommitGraphStoreReader}

/-- What folding `discoverParent` over a commit's parents does: the parents not seen before
join the frontier once each, with the commit's generation, and all of them are seen. -/
structure Discovered (generation : ℕ) (parents : List CommitId) (scan scan' : LayerScan) :
    Prop where
  commits : scan'.commits = scan.commits
  added : ∃ added, scan'.nextFrontier = scan.nextFrontier ++ added ∧
    (added.map Prod.fst).Nodup ∧ (∀ c, c ∈ added.map Prod.fst ↔ c ∈ parents ∧ c ∉ scan.seen) ∧
    ∀ e ∈ added, e.2 = generation
  seen_iff : ∀ c, c ∈ scan'.seen ↔ c ∈ scan.seen ∨ c ∈ parents

theorem discovered_foldl (generation : ℕ) (parents : List CommitId) (scan : LayerScan) :
    Discovered generation parents scan (parents.foldl (discoverParent generation) scan) := by
  induction parents generalizing scan with
  | nil => exact ⟨rfl, ⟨[], by simp, by simp, by simp, by simp⟩, by simp⟩
  | cons p rest ih =>
    rw [List.foldl_cons]
    by_cases hp : p ∈ scan.seen
    · -- a parent seen before changes nothing
      have hskip : discoverParent generation scan p = scan := if_pos hp
      rw [hskip]
      obtain ⟨hcommits, ⟨added, hnext, hnodup, hadded, hgen⟩, hseen⟩ := ih scan
      refine ⟨hcommits, ⟨added, hnext, hnodup, fun c => ?_, hgen⟩, fun c => ?_⟩
      · by_cases hcp : c = p
        · subst hcp
          simp [hadded, hp]
        · simp [hadded, hcp]
      · by_cases hcp : c = p
        · subst hcp
          simp [hseen, hp]
        · simp [hseen, hcp]
    · -- a new parent is seen, and queued before those found after it
      have hstep : discoverParent generation scan p =
          { scan with seen := scan.seen.insert p,
                      nextFrontier := scan.nextFrontier ++ [(p, generation)] } := if_neg hp
      rw [hstep]
      obtain ⟨hcommits, ⟨added, hnext, hnodup, hadded, hgen⟩, hseen⟩ := ih _
      refine ⟨hcommits, ⟨(p, generation) :: added, by simp [hnext], ?_, fun c => ?_, ?_⟩,
        fun c => ?_⟩
      · refine List.nodup_cons.mpr ⟨fun hmem => ?_, hnodup⟩
        exact ((hadded p).mp hmem).2 (OrderedSet.mem_insert.mpr (Or.inl rfl))
      · by_cases hcp : c = p
        · subst hcp
          simp [hp]
        · simp [hadded, hcp]
      · intro e he
        rcases List.mem_cons.mp he with rfl | he
        · rfl
        · exact hgen e he
      · by_cases hcp : c = p
        · subst hcp
          simp [hseen]
        · simp [hseen, hcp]

/-- What the layer loop has built after the entries `done`, from the seen set `seen`: each
entry's commit, stored and below the child that found it; and the parents of those commits
not seen before, queued once each with the generation of a commit that found them. -/
structure LayerScan.Inv (reader : CommitGraphStoreReader) (seen : OrderedSet CommitId)
    (done : List (CommitId × ℕ)) (scan : LayerScan) : Prop where
  loaded : List.Forall₂ (fun entry node => reader.loadNode entry.1 = some node ∧
    node.generation < entry.2) done scan.commits
  seen_iff : ∀ c, c ∈ scan.seen ↔ c ∈ seen ∨ c ∈ scan.nextFrontier.map Prod.fst
  next_nodup : (scan.nextFrontier.map Prod.fst).Nodup
  next_iff : ∀ c, c ∈ scan.nextFrontier.map Prod.fst ↔
    (∃ node ∈ scan.commits, c ∈ node.parentCommitIds) ∧ c ∉ seen
  tags : ∀ e ∈ scan.nextFrontier, ∃ node ∈ scan.commits,
    e.1 ∈ node.parentCommitIds ∧ e.2 = node.generation

theorem LayerScan.inv_nil (seen : OrderedSet CommitId) :
    LayerScan.Inv reader seen [] ⟨seen, [], []⟩ where
  loaded := .nil
  seen_iff := by simp
  next_nodup := List.nodup_nil
  next_iff := by simp
  tags := by simp

theorem scanEntry_eq_ok {scan scan' : LayerScan} {entry : CommitId × ℕ} :
    scanEntry reader scan entry = .ok scan' ↔
      ∃ node, reader.loadNode entry.1 = some node ∧ node.generation < entry.2 ∧
        scan' = { node.parentCommitIds.foldl (discoverParent node.generation) scan with
          commits := (node.parentCommitIds.foldl (discoverParent node.generation) scan).commits ++
            [node] } := by
  unfold scanEntry
  cases hload : reader.loadNode entry.1 with
  | none => simp
  | some node =>
    by_cases hge : node.generation ≥ entry.2
    · simp [hge]
    · simp only [hge, if_false, Except.ok.injEq, Option.some.injEq]
      constructor
      · intro h
        exact ⟨node, rfl, by omega, h.symm⟩
      · rintro ⟨_, rfl, -, h⟩
        exact h.symm

/-- One entry of the layer loop keeps what it has built. -/
theorem LayerScan.Inv.step {seen : OrderedSet CommitId} {done : List (CommitId × ℕ)}
    {scan scan' : LayerScan} {entry : CommitId × ℕ} (hinv : LayerScan.Inv reader seen done scan)
    (h : scanEntry reader scan entry = .ok scan') :
    LayerScan.Inv reader seen (done ++ [entry]) scan' := by
  obtain ⟨node, hload, hlt, rfl⟩ := scanEntry_eq_ok.mp h
  obtain ⟨hcommits, ⟨added, hnext, hnodup, hadded, hgen⟩, hseen⟩ :=
    discovered_foldl node.generation node.parentCommitIds scan
  have hold : ∀ c ∈ scan.nextFrontier.map Prod.fst, c ∈ scan.seen :=
    fun c hc => (hinv.seen_iff c).mpr (Or.inr hc)
  refine ⟨?_, fun c => ?_, ?_, fun c => ?_, ?_⟩
  · rw [hcommits]
    exact List.rel_append hinv.loaded (.cons ⟨hload, hlt⟩ .nil)
  · rw [hseen, hnext, List.map_append, List.mem_append, hadded, hinv.seen_iff]
    tauto
  · rw [hnext, List.map_append, List.nodup_append]
    exact ⟨hinv.next_nodup, hnodup, fun a ha b hb hab => ((hadded b).mp hb).2 (hab ▸ hold a ha)⟩
  · rw [hnext, hcommits, List.map_append, List.mem_append, hinv.next_iff, hadded]
    simp only [List.mem_append, List.mem_singleton]
    constructor
    · rintro (⟨⟨n, hn, hcn⟩, hcs⟩ | ⟨hcp, hcs⟩)
      · exact ⟨⟨n, Or.inl hn, hcn⟩, hcs⟩
      · exact ⟨⟨node, Or.inr rfl, hcp⟩, fun hs => hcs ((hinv.seen_iff c).mpr (Or.inl hs))⟩
    · rintro ⟨⟨n, hn | rfl, hcn⟩, hcs⟩
      · exact Or.inl ⟨⟨n, hn, hcn⟩, hcs⟩
      · -- a parent of the new commit is queued now, or was queued before
        by_cases hsc : c ∈ scan.seen
        · rcases (hinv.seen_iff c).mp hsc with hs | hq
          · exact absurd hs hcs
          · exact Or.inl ((hinv.next_iff c).mp hq)
        · exact Or.inr ⟨hcn, hsc⟩
  · rw [hnext, hcommits]
    rintro e he
    rcases List.mem_append.mp he with he | he
    · obtain ⟨n, hn, hen⟩ := hinv.tags e he
      exact ⟨n, List.mem_append_left _ hn, hen⟩
    · have hmem : e.1 ∈ added.map Prod.fst := List.mem_map_of_mem he
      exact ⟨node, List.mem_append_right _ (List.mem_singleton_self _),
        ((hadded e.1).mp hmem).1, hgen e he⟩

theorem LayerScan.Inv.loadNode_of_mem {seen : OrderedSet CommitId} {done : List (CommitId × ℕ)}
    {scan : LayerScan} (hinv : LayerScan.Inv reader seen done scan) {node : CommitGraphNode}
    (hnode : node ∈ scan.commits) : reader.loadNode node.commitId = some node := by
  have hloaded := hinv.loaded
  clear hinv
  generalize scan.commits = commits at hloaded hnode
  induction hloaded with
  | nil => cases hnode
  | cons hhead _ ih =>
    rcases List.mem_cons.mp hnode with rfl | hnode
    · rw [(CommitGraphStoreReader.mem_of_loadNode hhead.1).2]
      exact hhead.1
    · exact ih hnode

/-- The commits of a layer are those of its entries, in the same order. -/
theorem LayerScan.Inv.map_commitId {seen : OrderedSet CommitId} {done : List (CommitId × ℕ)}
    {scan : LayerScan} (hinv : LayerScan.Inv reader seen done scan) :
    scan.commits.map (·.commitId) = done.map Prod.fst := by
  have hloaded := hinv.loaded
  clear hinv
  generalize scan.commits = commits at hloaded ⊢
  induction hloaded with
  | nil => rfl
  | cons hhead _ ih =>
    rw [List.map_cons, List.map_cons, ih, (CommitGraphStoreReader.mem_of_loadNode hhead.1).2]

theorem nextLayer_eq_none {walk : ReachableWalk} :
    walk.nextLayer reader = .ok none ↔ walk.frontier = [] := by
  unfold ReachableWalk.nextLayer
  by_cases hempty : walk.frontier = []
  · simp [hempty]
  · rw [if_neg (by simpa using hempty)]
    simp only [hempty, iff_false]
    intro h
    obtain ⟨scan, -, hpure⟩ := bind_eq_ok.mp h
    cases hpure

/-- A round that finds a layer: its entries are the sorted frontier, and the next walk holds
what the layer loop built. -/
theorem nextLayer_eq_some {walk walk' : ReachableWalk} {layer : ReachableLayer}
    (h : walk.nextLayer reader = .ok (some (layer, walk'))) :
    walk.frontier ≠ [] ∧ layer.depth = walk.depth ∧ walk'.depth = min (walk.depth + 1) u32Max ∧
      LayerScan.Inv reader walk.seen (sortByKey id walk.frontier)
        ⟨walk'.seen, walk'.frontier, layer.commits⟩ := by
  unfold ReachableWalk.nextLayer at h
  by_cases hempty : walk.frontier = []
  · simp [hempty] at h
  rw [if_neg (by simpa using hempty)] at h
  obtain ⟨scan, hscan, hpure⟩ := bind_eq_ok.mp h
  cases hpure
  have hinv := foldlM_invariant (LayerScan.Inv reader walk.seen)
    (fun _ _ _ _ hinv hstep => hinv.step hstep) (LayerScan.inv_nil walk.seen) hscan
  rw [List.nil_append] at hinv
  exact ⟨hempty, rfl, rfl, hinv⟩

/-- A round loads one commit per frontier entry. -/
theorem nextLayer_ids_perm {walk walk' : ReachableWalk} {layer : ReachableLayer}
    (h : walk.nextLayer reader = .ok (some (layer, walk'))) :
    (layer.commits.map (·.commitId)).Perm (walk.frontier.map Prod.fst) := by
  obtain ⟨-, -, -, hscan⟩ := nextLayer_eq_some h
  rw [hscan.map_commitId]
  exact (sortByKey_perm id walk.frontier).map Prod.fst

/-- A round over a frontier whose commits are all stored, each below the child that found
it, finds a layer. -/
theorem nextLayer_isOk {walk : ReachableWalk} (hne : walk.frontier ≠ [])
    (hload : ∀ e ∈ walk.frontier, ∃ node, reader.loadNode e.1 = some node ∧ node.generation < e.2) :
    ∃ layer walk', walk.nextLayer reader = .ok (some (layer, walk')) := by
  have hok : ∀ (done : List (CommitId × ℕ)) (scan : LayerScan), ∀ e ∈ sortByKey id walk.frontier,
      LayerScan.Inv reader walk.seen done scan → ∃ scan', scanEntry reader scan e = .ok scan' := by
    intro _ scan e he _
    obtain ⟨node, hnode, hlt⟩ := hload e ((sortByKey_perm id walk.frontier).subset he)
    exact ⟨_, scanEntry_eq_ok.mpr ⟨node, hnode, hlt, rfl⟩⟩
  obtain ⟨scan, hscan⟩ := foldlM_isOk (LayerScan.Inv reader walk.seen)
    (fun _ _ _ _ hinv hstep => hinv.step hstep) hok (LayerScan.inv_nil walk.seen)
  refine ⟨⟨walk.depth, scan.commits⟩, ⟨scan.seen, scan.nextFrontier, min (walk.depth + 1) u32Max⟩,
    ?_⟩
  unfold ReachableWalk.nextLayer
  rw [if_neg (by simpa using hne)]
  exact bind_eq_ok.mpr ⟨scan, hscan, rfl⟩

end Scan

section Termination

variable {reader : CommitGraphStoreReader}

/-- What bounds the walk: the commits emitted so far are distinct stored commits, the frontier
holds other commits once each, and the seen set is both. -/
structure ReachBound (reader : CommitGraphStoreReader) (emitted : List CommitId)
    (walk : ReachableWalk) : Prop where
  nodup : (emitted ++ walk.frontier.map Prod.fst).Nodup
  stored : ∀ c ∈ emitted, c ∈ reader.nodes.map (·.commitId)
  seen_iff : ∀ c, c ∈ walk.seen ↔ c ∈ emitted ∨ c ∈ walk.frontier.map Prod.fst

theorem ReachBound.length_le {emitted : List CommitId} {walk : ReachableWalk}
    (hb : ReachBound reader emitted walk) : emitted.length ≤ reader.nodes.length := by
  have hle := ((List.nodup_append.mp hb.nodup).1.subperm hb.stored).length_le
  rwa [List.length_map] at hle

theorem reachBound_new (headCommitId : CommitId) :
    ReachBound reader [] (ReachableWalk.new headCommitId) where
  nodup := by simp [ReachableWalk.new]
  stored := by simp
  seen_iff := by simp [ReachableWalk.new, OrderedSet.mem_insert]

/-- A round that finds a layer emits its commits, stored and not emitted before. -/
theorem ReachBound.step {emitted : List CommitId} {walk walk' : ReachableWalk}
    {layer : ReachableLayer} (hb : ReachBound reader emitted walk)
    (h : walk.nextLayer reader = .ok (some (layer, walk'))) :
    ReachBound reader (emitted ++ layer.commits.map (·.commitId)) walk' ∧ layer.commits ≠ [] := by
  obtain ⟨hne, -, -, hinv⟩ := nextLayer_eq_some h
  have hperm := nextLayer_ids_perm h
  have hnew : ∀ c ∈ walk'.frontier.map Prod.fst, c ∉ walk.seen :=
    fun c hc => ((hinv.next_iff c).mp hc).2
  refine ⟨⟨?_, fun c hc => ?_, fun c => ?_⟩, ?_⟩
  · rw [List.append_assoc, List.nodup_append, List.nodup_append]
    refine ⟨(List.nodup_append.mp hb.nodup).1, ⟨hperm.nodup_iff.mpr
      (List.nodup_append.mp hb.nodup).2.1, hinv.next_nodup, ?_⟩, ?_⟩
    · intro a ha b hb' hab
      exact hnew b hb' (hab ▸ (hb.seen_iff a).mpr (Or.inr (hperm.subset ha)))
    · intro a ha b hb' hab
      rcases List.mem_append.mp hb' with hb' | hb'
      · exact (List.nodup_append.mp hb.nodup).2.2 a ha b (hperm.subset hb') hab
      · exact hnew b hb' (hab ▸ (hb.seen_iff a).mpr (Or.inl ha))
  · rcases List.mem_append.mp hc with hc | hc
    · exact hb.stored c hc
    · obtain ⟨node, hnode, rfl⟩ := List.mem_map.mp hc
      exact CommitGraphStoreReader.mem_ids_of_loadNode (hinv.loadNode_of_mem hnode)
  · rw [hinv.seen_iff, hb.seen_iff, List.mem_append]
    have := hperm.mem_iff (a := c)
    tauto
  · intro hnil
    have hlen := hperm.length_eq
    rw [hnil, List.map_nil, List.length_nil, List.length_map] at hlen
    exact hne (List.length_eq_zero_iff.mp hlen.symm)

theorem walkLayers_isSome_of_bound (stop : ℕ → List ReachableCommitGraphNode → Bool) (fuel : ℕ)
    (walk : ReachableWalk) (commits : List ReachableCommitGraphNode)
    (hb : ReachBound reader (commits.map (·.commit.commitId)) walk)
    (hfuel : reader.nodes.length < commits.length + fuel) :
    (walkLayers reader stop fuel walk commits).isSome := by
  induction fuel generalizing walk commits with
  | zero =>
    have := hb.length_le
    rw [List.length_map] at this
    omega
  | succ fuel ih =>
    unfold walkLayers
    rcases hnext : walk.nextLayer reader with e | _ | ⟨layer, walk'⟩
    · rfl
    · rfl
    · obtain ⟨hb', hne⟩ := hb.step hnext
      dsimp only
      split
      · rfl
      · apply ih
        · simpa [Function.comp_def] using hb'
        · have hpos : 0 < layer.commits.length := List.length_pos_iff.mpr hne
          simp only [List.length_append, List.length_map]
          omega

/-- The walk from a head ends within one round per stored commit, and one more. -/
theorem walkLayers_isSome (reader : CommitGraphStoreReader)
    (stop : ℕ → List ReachableCommitGraphNode → Bool) (headCommitId : CommitId) :
    (walkLayers reader stop (reader.nodes.length + 1) (ReachableWalk.new headCommitId) []).isSome :=
  walkLayers_isSome_of_bound stop _ _ [] (reachBound_new headCommitId) (by simp)

end Termination

section Requests

/-- `walk_reachable_nodes`: the commits reachable from the head with their depths, nearest
first, up to the layer at `max_depth` when it is given. -/
def walkReachableNodes (reader : CommitGraphStoreReader) (headCommitId : CommitId)
    (maxDepth : Option ℕ) : Except LixError (List ReachableCommitGraphNode) :=
  (walkLayers reader (fun depth _ => maxDepth.any fun maxDepth => maxDepth ≤ depth)
    (reader.nodes.length + 1) (ReachableWalk.new headCommitId) []).get
    (walkLayers_isSome reader _ headCommitId)

/-- `reachable_nodes_cache`: the walks answered so far, by head and depth bound. -/
structure ReachableNodesCache where
  get : CommitId × Option ℕ → Option (List ReachableCommitGraphNode)

def ReachableNodesCache.empty : ReachableNodesCache := ⟨fun _ => none⟩

def ReachableNodesCache.insert (cache : ReachableNodesCache) (key : CommitId × Option ℕ)
    (nodes : List ReachableCommitGraphNode) : ReachableNodesCache :=
  ⟨Function.update cache.get key (some nodes)⟩

/-- `reachable_nodes_within_depth`: a cached answer, else the bounded cut of a cached
unbounded walk, else a new walk; the answer is cached under the request. -/
def reachableNodesWithinDepth (reader : CommitGraphStoreReader) (cache : ReachableNodesCache)
    (headCommitId : CommitId) (maxDepth : Option ℕ) :
    Except LixError (List ReachableCommitGraphNode × ReachableNodesCache) :=
  match cache.get (headCommitId, maxDepth) with
  | some nodes => .ok (nodes, cache)
  | none =>
    match maxDepth, cache.get (headCommitId, none) with
    | some maxDepthValue, some nodes =>
      let bounded := nodes.takeWhile fun reachable => reachable.depth ≤ maxDepthValue
      .ok (bounded, cache.insert (headCommitId, maxDepth) bounded)
    | _, _ => do
      let nodes ← walkReachableNodes reader headCommitId maxDepth
      pure (nodes, cache.insert (headCommitId, maxDepth) nodes)

/-- `reachable_nodes_limited`: the first `limit` reachable commits, from the cached unbounded
walk when there is one, else from a walk of whole layers until `limit` commits are found. It
does not fill the cache. -/
def reachableNodesLimited (reader : CommitGraphStoreReader) (cache : ReachableNodesCache)
    (headCommitId : CommitId) (limit : ℕ) : Except LixError (List ReachableCommitGraphNode) :=
  if limit = 0 then .ok []
  else
    match cache.get (headCommitId, none) with
    | some nodes => .ok (nodes.take limit)
    | none =>
      ((walkLayers reader (fun _ nodes => limit ≤ nodes.length) (reader.nodes.length + 1)
        (ReachableWalk.new headCommitId) []).get (walkLayers_isSome reader _ headCommitId)).map
        (·.take limit)

end Requests

end Lix.CommitGraph
