import Lix.CommitGraphBestCommon

/-! `merge_base` of `commit_graph/context.rs`: the single base of a three-way merge. Before
the general walk it tries shortcuts: equal heads, a head that is the other's only parent,
two heads with one shared parent, and `linear_merge_base`, which walks two linear heads
down their first-parent lanes by Myers jumps. The first loop of `linear_merge_base` lowers
the deeper head to the other's generation; the second lowers both until they meet, and
gives the graph to the general walk at a merge commit or at jumps of unequal generation.

Both loops take fuel. Every round lowers a head to a stored node below it, and a stored
linear node jumps by a positive span, so a fuel of both generations and three more is
enough for any two nodes. -/
namespace Lix.CommitGraph
open KeyCodec TrackedState

/-- `LinearMergeBase`: what the linear walk settled. -/
inductive LinearMergeBase where
  | resolved (base : CommitId)
  | disconnected
  | generalGraph
  deriving DecidableEq, Repr

section Linear

variable (reader : CommitGraphStoreReader)

/-- `load_linear_jump`. -/
def loadLinearJump (node : CommitGraphNode) : Except LixError CommitGraphNode := do
  let jump ← NodeTraversalLoader.loadNode reader node.firstParentJumpCommitId
  validateFirstParentJump node jump
  pure jump

/-- `load_linear_parent`. -/
def loadLinearParent (child : CommitGraphNode) (parentId : CommitId) :
    Except LixError CommitGraphNode := do
  let parent ← NodeTraversalLoader.loadNode reader parentId
  validateParentGeneration child parent
  pure parent

/-- One round of the first loop on the deeper head: its jump when that stays at or above
the target generation, its parent otherwise; `none` when the head is not linear. -/
def lowerDeeper (deeper : CommitGraphNode) (targetGeneration : ℕ) :
    Except LixError (Option CommitGraphNode) :=
  match deeper.parentCommitIds with
  | [parentId] => do
    let jump ← loadLinearJump reader deeper
    if jump.generation ≥ targetGeneration then pure (some jump)
    else some <$> loadLinearParent reader deeper parentId
  | _ => pure none

/-- The first loop: lower the deeper head until both have one generation; `none` hands the
graph to the general walk. -/
def equalizeGenerations :
    ℕ → CommitGraphNode → CommitGraphNode →
      Option (Except LixError (Option (CommitGraphNode × CommitGraphNode)))
  | 0, _, _ => none
  | fuel + 1, left, right =>
    if left.generation = right.generation then some (.ok (some (left, right)))
    else if left.generation > right.generation then
      match lowerDeeper reader left right.generation with
      | .error e => some (.error e)
      | .ok none => some (.ok none)
      | .ok (some left) => equalizeGenerations fuel left right
    else
      match lowerDeeper reader right left.generation with
      | .error e => some (.error e)
      | .ok none => some (.ok none)
      | .ok (some right) => equalizeGenerations fuel left right

/-- One round of the second loop on two linear heads: both step to their parents when
their jumps meet, both jump otherwise; `none` when the jumps have different generations.
The two jumps, and the two parents, are loaded as one batch each. -/
def meetStep (left right : CommitGraphNode) (leftParentId rightParentId : CommitId) :
    Except LixError (Option (CommitGraphNode × CommitGraphNode)) := do
  let leftJump ← NodeTraversalLoader.loadNode reader left.firstParentJumpCommitId
  let rightJump ← NodeTraversalLoader.loadNode reader right.firstParentJumpCommitId
  validateFirstParentJump left leftJump
  validateFirstParentJump right rightJump
  if leftJump.generation ≠ rightJump.generation then pure none
  else if leftJump.commitId = rightJump.commitId then do
    let leftParent ← NodeTraversalLoader.loadNode reader leftParentId
    let rightParent ← NodeTraversalLoader.loadNode reader rightParentId
    validateParentGeneration left leftParent
    validateParentGeneration right rightParent
    pure (some (leftParent, rightParent))
  else pure (some (leftJump, rightJump))

/-- The second loop: lower both heads until they meet. Two roots that differ have no common
history; any other head that is not linear hands the graph to the general walk. -/
def meetLinear : ℕ → CommitGraphNode → CommitGraphNode → Option (Except LixError LinearMergeBase)
  | 0, _, _ => none
  | fuel + 1, left, right =>
    if left.commitId = right.commitId then some (.ok (.resolved left.commitId))
    else
      match left.parentCommitIds, right.parentCommitIds with
      | [leftParentId], [rightParentId] =>
        match meetStep reader left right leftParentId rightParentId with
        | .error e => some (.error e)
        | .ok none => some (.ok .generalGraph)
        | .ok (some (left, right)) => meetLinear fuel left right
      | leftParents, rightParents =>
        some (.ok (if leftParents.isEmpty ∧ rightParents.isEmpty then .disconnected
          else .generalGraph))

end Linear

section Termination

variable {reader : CommitGraphStoreReader}

/-- What bounds the linear walk: a node's generation, and one more for a node the reader
does not hold, which has not passed the decoding check. -/
def linearWeight (reader : CommitGraphStoreReader) (node : CommitGraphNode) : ℕ :=
  node.generation + if node ∈ reader.nodes then 0 else 1

theorem mem_nodes_of_loadNode_eq_ok {c : CommitId} {node : CommitGraphNode}
    (h : NodeTraversalLoader.loadNode reader c = .ok node) : node ∈ reader.nodes :=
  (CommitGraphStoreReader.mem_of_loadNode (NodeTraversalLoader.loadNode_eq_ok.mp h)).1

/-- A validated jump of a linear node lies below it: a stored linear node jumps by a
positive span. -/
theorem linearWeight_lt_of_jump {node jump : CommitGraphNode} {p : CommitId}
    (hlinear : node.parentCommitIds = [p]) (hjump : jump ∈ reader.nodes)
    (h : validateFirstParentJump node jump = .ok ()) :
    linearWeight reader jump < linearWeight reader node := by
  have hgen := (validateFirstParentJump_eq_ok.mp h).2
  unfold linearWeight
  rw [if_pos hjump]
  split
  · rename_i hnode
    have hsummary := validateFirstParentJumpSummary_eq_ok.mp (reader.decoded node hnode)
    have hspan := (hsummary.2.1 (by rw [hlinear]; rfl)).1
    omega
  · omega

theorem linearWeight_lt_of_parent {child parent : CommitGraphNode}
    (hparent : parent ∈ reader.nodes) (h : validateParentGeneration child parent = .ok ()) :
    linearWeight reader parent < linearWeight reader child := by
  have hlt := validateParentGeneration_eq_ok.mp h
  unfold linearWeight
  rw [if_pos hparent]
  split <;> omega

theorem loadLinearJump_eq_ok {node jump : CommitGraphNode}
    (h : loadLinearJump reader node = .ok jump) :
    NodeTraversalLoader.loadNode reader node.firstParentJumpCommitId = .ok jump ∧
      validateFirstParentJump node jump = .ok () := by
  obtain ⟨j, hload, hrest⟩ := ExceptSpec.bind_eq_ok.mp h
  obtain ⟨u, hvalid, hpure⟩ := ExceptSpec.bind_eq_ok.mp hrest
  cases ExceptSpec.pure_eq_ok.mp hpure
  exact ⟨hload, hvalid⟩

theorem loadLinearParent_eq_ok {child parent : CommitGraphNode} {parentId : CommitId}
    (h : loadLinearParent reader child parentId = .ok parent) :
    NodeTraversalLoader.loadNode reader parentId = .ok parent ∧
      validateParentGeneration child parent = .ok () := by
  obtain ⟨q, hload, hrest⟩ := ExceptSpec.bind_eq_ok.mp h
  obtain ⟨u, hvalid, hpure⟩ := ExceptSpec.bind_eq_ok.mp hrest
  cases ExceptSpec.pure_eq_ok.mp hpure
  exact ⟨hload, hvalid⟩

theorem linearWeight_lowerDeeper {deeper lowered : CommitGraphNode} {target : ℕ}
    (h : lowerDeeper reader deeper target = .ok (some lowered)) :
    linearWeight reader lowered < linearWeight reader deeper := by
  unfold lowerDeeper at h
  split at h
  · rename_i parentId hlinear
    obtain ⟨jump, hjump, hrest⟩ := ExceptSpec.bind_eq_ok.mp h
    obtain ⟨hload, hvalid⟩ := loadLinearJump_eq_ok hjump
    split at hrest
    · cases ExceptSpec.pure_eq_ok.mp hrest
      exact linearWeight_lt_of_jump hlinear (mem_nodes_of_loadNode_eq_ok hload) hvalid
    · obtain ⟨parent, hparent, hsome⟩ := ExceptSpec.map_eq_ok.mp hrest
      cases hsome
      obtain ⟨hload, hvalid⟩ := loadLinearParent_eq_ok hparent
      exact linearWeight_lt_of_parent (mem_nodes_of_loadNode_eq_ok hload) hvalid
  · cases h

theorem linearWeight_meetStep {left right left' right' : CommitGraphNode}
    {leftParentId rightParentId : CommitId} (hl : left.parentCommitIds = [leftParentId])
    (hr : right.parentCommitIds = [rightParentId])
    (h : meetStep reader left right leftParentId rightParentId = .ok (some (left', right'))) :
    linearWeight reader left' < linearWeight reader left ∧
      linearWeight reader right' < linearWeight reader right := by
  obtain ⟨leftJump, hlj, h⟩ := ExceptSpec.bind_eq_ok.mp h
  obtain ⟨rightJump, hrj, h⟩ := ExceptSpec.bind_eq_ok.mp h
  obtain ⟨⟨⟩, hlv, h⟩ := ExceptSpec.bind_eq_ok.mp h
  obtain ⟨⟨⟩, hrv, h⟩ := ExceptSpec.bind_eq_ok.mp h
  split at h
  · cases h
  split at h
  · -- the jumps meet: both step to their parents
    obtain ⟨leftParent, hlp, h⟩ := ExceptSpec.bind_eq_ok.mp h
    obtain ⟨rightParent, hrp, h⟩ := ExceptSpec.bind_eq_ok.mp h
    obtain ⟨⟨⟩, hlg, h⟩ := ExceptSpec.bind_eq_ok.mp h
    obtain ⟨⟨⟩, hrg, h⟩ := ExceptSpec.bind_eq_ok.mp h
    cases ExceptSpec.pure_eq_ok.mp h
    exact ⟨linearWeight_lt_of_parent (mem_nodes_of_loadNode_eq_ok hlp) hlg,
      linearWeight_lt_of_parent (mem_nodes_of_loadNode_eq_ok hrp) hrg⟩
  · cases ExceptSpec.pure_eq_ok.mp h
    exact ⟨linearWeight_lt_of_jump hl (mem_nodes_of_loadNode_eq_ok hlj) hlv,
      linearWeight_lt_of_jump hr (mem_nodes_of_loadNode_eq_ok hrj) hrv⟩

theorem equalizeGenerations_isSome_of_weight (fuel : ℕ) (left right : CommitGraphNode)
    (h : linearWeight reader left + linearWeight reader right < fuel) :
    (equalizeGenerations reader fuel left right).isSome := by
  fun_induction equalizeGenerations reader fuel left right with
  | case1 left right => omega
  | case2 fuel left right heq => rfl
  | case3 fuel left right hne hgt e herr => rfl
  | case4 fuel left right hne hgt hnone => rfl
  | case5 fuel left right hne hgt left' hlower ih =>
    have hlt := linearWeight_lowerDeeper hlower
    exact ih (by omega)
  | case6 fuel left right hne hle e herr => rfl
  | case7 fuel left right hne hle hnone => rfl
  | case8 fuel left right hne hle right' hlower ih =>
    have hlt := linearWeight_lowerDeeper hlower
    exact ih (by omega)

theorem linearWeight_le (reader : CommitGraphStoreReader) (node : CommitGraphNode) :
    linearWeight reader node ≤ node.generation + 1 := by
  unfold linearWeight
  split <;> omega

theorem equalizeGenerations_isSome (reader : CommitGraphStoreReader) (left right : CommitGraphNode) :
    (equalizeGenerations reader (left.generation + right.generation + 3) left right).isSome := by
  apply equalizeGenerations_isSome_of_weight
  have hl := linearWeight_le reader left
  have hr := linearWeight_le reader right
  omega

theorem meetLinear_isSome_of_weight (fuel : ℕ) (left right : CommitGraphNode)
    (h : linearWeight reader left + linearWeight reader right < fuel) :
    (meetLinear reader fuel left right).isSome := by
  fun_induction meetLinear reader fuel left right with
  | case1 left right => omega
  | case2 fuel left right heq => rfl
  | case3 fuel left right hne lp rp hl hr e herr => rfl
  | case4 fuel left right hne lp rp hl hr hnone => rfl
  | case5 fuel left right hne lp rp hr hl left' right' hstep ih =>
    have hlt := linearWeight_meetStep hl hr hstep
    exact ih (by omega)
  | case6 fuel left right hne hsingle => rfl

theorem meetLinear_isSome (reader : CommitGraphStoreReader) (left right : CommitGraphNode) :
    (meetLinear reader (left.generation + right.generation + 3) left right).isSome := by
  apply meetLinear_isSome_of_weight
  have hl := linearWeight_le reader left
  have hr := linearWeight_le reader right
  omega

end Termination

section MergeBase

variable (reader : CommitGraphStoreReader)

/-- `linear_merge_base`. -/
def linearMergeBase (left right : CommitGraphNode) : Except LixError LinearMergeBase := do
  let equalized ← (equalizeGenerations reader (left.generation + right.generation + 3) left
    right).get (equalizeGenerations_isSome reader left right)
  match equalized with
  | none => pure .generalGraph
  | some (left, right) =>
    (meetLinear reader (left.generation + right.generation + 3) left right).get
      (meetLinear_isSome reader left right)

/-- The one parent both heads have, when each has exactly one and it is the same. -/
def sharedSingleParent (left right : CommitGraphNode) : Option CommitId :=
  match left.parentCommitIds, right.parentCommitIds with
  | [leftParent], [rightParent] => if leftParent = rightParent then some leftParent else none
  | _, _ => none

/-- `CommitGraphStoreReader::merge_base`. The two heads are loaded as one batch, the left
one's absence reported first. -/
def mergeBase (leftCommitId rightCommitId : CommitId) : Except LixError CommitId := do
  let left ← NodeTraversalLoader.loadNode reader leftCommitId
  let right ← NodeTraversalLoader.loadNode reader rightCommitId
  if leftCommitId = rightCommitId then pure leftCommitId
  else if left.parentCommitIds = [rightCommitId] then do
    validateParentGeneration left right
    pure rightCommitId
  else if right.parentCommitIds = [leftCommitId] then do
    validateParentGeneration right left
    pure leftCommitId
  else
    match sharedSingleParent left right with
    | some parentId => do
      let parent ← NodeTraversalLoader.loadNode reader parentId
      validateParentGeneration left parent
      validateParentGeneration right parent
      pure parentId
    | none => do
      match ← linearMergeBase reader left right with
      | .resolved base => pure base
      | .disconnected => throw (noCommonHistoryError leftCommitId rightCommitId)
      | .generalGraph =>
        let ancestors ← bestCommonAncestors reader leftCommitId rightCommitId
        match ancestors with
        | [] => throw (noCommonHistoryError leftCommitId rightCommitId)
        | [base] => pure base.commitId
        | _ => throw (ambiguousMergeBase leftCommitId rightCommitId)

end MergeBase

end Lix.CommitGraph
