import Lix.TrackedStateDiff

/-! The commit graph as `commit_graph/context.rs` reads it: the nodes, the reader's lookups,
and the checks a node and its links must pass. A node records its first-parent jump, the
pointer of Myers' applicative random-access stack that `next_first_parent_jump` derives
when the commit is written: a linear commit jumps down its first-parent chain, a root or
merge commit jumps to itself with span `0`.

The reader holds the nodes its records decode to. Decoding (`commit_graph_node_from_record`)
checks each node's jump summary, so every node held has passed that check; storage,
batching and the node cache are left out. -/
namespace Lix.CommitGraph
open KeyCodec TrackedState

/-- `CommitId` orders by its UUID bytes. -/
instance : Ord CommitId := ⟨fun a b => compare a.uuid b.uuid⟩

instance : Std.TransOrd CommitId where
  eq_swap := Std.OrientedOrd.eq_swap (α := Vector UInt8 16)
  isLE_trans := Std.TransOrd.isLE_trans (α := Vector UInt8 16)

instance : Std.LawfulEqOrd CommitId where
  eq_of_compare {a b} h := by
    cases a
    cases b
    congr
    exact Std.LawfulEqOrd.eq_of_compare (α := Vector UInt8 16) h

/-- The fields of a commit-graph node that the walks read. -/
structure CommitGraphNode where
  commitId : CommitId
  generation : ℕ
  parentCommitIds : List CommitId
  firstParentJumpCommitId : CommitId
  firstParentJumpSpan : ℕ
  deriving DecidableEq, Repr

/-- `u64::checked_sub`. -/
def checkedSub (a b : ℕ) : Option ℕ := if b ≤ a then some (a - b) else none

theorem checkedSub_eq_some {a b c : ℕ} : checkedSub a b = some c ↔ b ≤ a ∧ c = a - b := by
  unfold checkedSub
  split <;> simp_all [eq_comm]

section Jumps

/-- `first_parent_jump_generation`: the generation the node's jump must have. -/
def firstParentJumpGeneration (node : CommitGraphNode) : Except LixError ℕ :=
  match checkedSub node.generation node.firstParentJumpSpan with
  | some generation => .ok generation
  | none => .error ⟨"LIX_ERROR_UNKNOWN", "commit '" ++ node.commitId.toString ++
      "' first-parent jump span exceeds its generation"⟩

/-- `validate_first_parent_jump_summary`: a linear commit jumps somewhere else, by a
positive span; a root or merge commit jumps to itself by `0`. -/
def validateFirstParentJumpSummary (node : CommitGraphNode) : Except LixError Unit := do
  let _ ← firstParentJumpGeneration node
  if node.parentCommitIds.length = 1 then
    if node.firstParentJumpSpan = 0 ∨ node.firstParentJumpCommitId = node.commitId then
      throw ⟨"LIX_ERROR_UNKNOWN", "linear commit '" ++ node.commitId.toString ++
        "' has no advancing first-parent jump"⟩
    else pure ()
  else if node.firstParentJumpSpan ≠ 0 ∨ node.firstParentJumpCommitId ≠ node.commitId then
    throw ⟨"LIX_ERROR_UNKNOWN", "root or merge commit '" ++ node.commitId.toString ++
      "' does not reset its first-parent jump"⟩
  else pure ()

/-- `validate_first_parent_jump`: the loaded jump is the recorded one, at the generation
the span gives. The ids are compared first, as Rust's `||` does. -/
def validateFirstParentJump (node jump : CommitGraphNode) : Except LixError Unit :=
  let invalid : LixError := ⟨"LIX_ERROR_UNKNOWN", "commit '" ++ node.commitId.toString ++
    "' has an invalid first-parent jump '" ++ node.firstParentJumpCommitId.toString ++ "'"⟩
  if jump.commitId ≠ node.firstParentJumpCommitId then .error invalid
  else do
    let generation ← firstParentJumpGeneration node
    if jump.generation ≠ generation then .error invalid else pure ()

/-- `validate_parent_generation`. -/
def validateParentGeneration (child parent : CommitGraphNode) : Except LixError Unit :=
  if parent.generation ≥ child.generation then
    .error ⟨"LIX_ERROR_UNKNOWN", "commit '" ++ child.commitId.toString ++ "' parent '" ++
      parent.commitId.toString ++ "' does not have a lower generation"⟩
  else pure ()

/-- `next_first_parent_jump` of `changelog/types.rs`, over the fields of the parent's record
and of its jump's record that it reads. When the parent's jump and the jump's own jump
cover equal spans the new commit composes them, otherwise it points to its parent. -/
def nextFirstParentJump (commitId : CommitId) (parentCommitIds : List CommitId)
    (parent parentJump : Option CommitGraphNode) : Except LixError (CommitId × ℕ) :=
  match parentCommitIds with
  | [parentCommitId] =>
    match parent with
    | none => .error ⟨"LIX_INTERNAL_ERROR", "commit '" ++ commitId.toString ++
        "' has no parent jump metadata"⟩
    | some parent =>
      if parent.commitId ≠ parentCommitId then
        .error ⟨"LIX_INTERNAL_ERROR", "commit '" ++ commitId.toString ++
          "' resolved the wrong parent jump record"⟩
      else
        match parentJump with
        | none => .error ⟨"LIX_INTERNAL_ERROR", "commit '" ++ commitId.toString ++
            "' has no parent jump target"⟩
        | some jump =>
          if jump.commitId ≠ parent.firstParentJumpCommitId ∨
              checkedSub parent.generation jump.generation ≠ some parent.firstParentJumpSpan then
            .error ⟨"LIX_INTERNAL_ERROR", "commit '" ++ parent.commitId.toString ++
              "' has invalid first-parent jump metadata"⟩
          else if parent.firstParentJumpSpan = jump.firstParentJumpSpan then
            .ok (jump.firstParentJumpCommitId,
              1 + parent.firstParentJumpSpan + jump.firstParentJumpSpan)
          else .ok (parent.commitId, 1)
  | _ => .ok (commitId, 0)

section Specs

theorem firstParentJumpGeneration_eq_ok {node : CommitGraphNode} {g : ℕ} :
    firstParentJumpGeneration node = .ok g ↔
      node.firstParentJumpSpan ≤ node.generation ∧ g = node.generation - node.firstParentJumpSpan := by
  unfold firstParentJumpGeneration
  cases h : checkedSub node.generation node.firstParentJumpSpan with
  | none =>
    simp only [reduceCtorEq, false_iff, not_and]
    intro hle
    simp [checkedSub, hle] at h
  | some g' =>
    obtain ⟨hle, rfl⟩ := checkedSub_eq_some.mp h
    simp [hle, eq_comm]

theorem validateFirstParentJumpSummary_eq_ok {node : CommitGraphNode} :
    validateFirstParentJumpSummary node = .ok () ↔
      node.firstParentJumpSpan ≤ node.generation ∧
      (node.parentCommitIds.length = 1 →
        node.firstParentJumpSpan ≠ 0 ∧ node.firstParentJumpCommitId ≠ node.commitId) ∧
      (node.parentCommitIds.length ≠ 1 →
        node.firstParentJumpSpan = 0 ∧ node.firstParentJumpCommitId = node.commitId) := by
  unfold validateFirstParentJumpSummary
  cases hg : firstParentJumpGeneration node with
  | error e =>
    have hgt : ¬node.firstParentJumpSpan ≤ node.generation := by
      intro hle
      rw [firstParentJumpGeneration_eq_ok.mpr ⟨hle, rfl⟩] at hg
      cases hg
    simp [bind, Except.bind, hgt]
  | ok g =>
    have hle := (firstParentJumpGeneration_eq_ok.mp hg).1
    by_cases hlen : node.parentCommitIds.length = 1
    · simp [bind, Except.bind, hle, hlen, throw, throwThe, MonadExceptOf.throw, pure,
        Except.pure]
    · simp [bind, Except.bind, hle, hlen, throw, throwThe, MonadExceptOf.throw, pure,
        Except.pure]

theorem validateFirstParentJump_eq_ok {node jump : CommitGraphNode} :
    validateFirstParentJump node jump = .ok () ↔
      jump.commitId = node.firstParentJumpCommitId ∧
        jump.generation + node.firstParentJumpSpan = node.generation := by
  unfold validateFirstParentJump
  by_cases hid : jump.commitId = node.firstParentJumpCommitId
  · simp only [hid, ne_eq, not_true_eq_false, if_false, true_and]
    cases hg : firstParentJumpGeneration node with
    | error e =>
      have hgt : ¬node.firstParentJumpSpan ≤ node.generation := by
        intro hle
        rw [firstParentJumpGeneration_eq_ok.mpr ⟨hle, rfl⟩] at hg
        cases hg
      simp only [bind, Except.bind, reduceCtorEq, false_iff]
      omega
    | ok g =>
      obtain ⟨hle, rfl⟩ := firstParentJumpGeneration_eq_ok.mp hg
      simp only [bind, Except.bind]
      split
      · simp only [reduceCtorEq, false_iff]
        omega
      · simp only [pure, Except.pure, true_iff]
        omega
  · simp [hid]

theorem validateParentGeneration_eq_ok {child parent : CommitGraphNode} :
    validateParentGeneration child parent = .ok () ↔ parent.generation < child.generation := by
  unfold validateParentGeneration
  split
  · simp only [reduceCtorEq, false_iff]
    omega
  · simp only [pure, Except.pure, true_iff]
    omega

/-- A commit with one parent either composes its parent's jump with that jump's own, or
points to the parent. -/
theorem nextFirstParentJump_eq_ok_of_single {commitId parentCommitId : CommitId}
    {parent parentJump : Option CommitGraphNode} {jumpId : CommitId} {span : ℕ}
    (h : nextFirstParentJump commitId [parentCommitId] parent parentJump = .ok (jumpId, span)) :
    ∃ p j, parent = some p ∧ p.commitId = parentCommitId ∧ parentJump = some j ∧
      j.commitId = p.firstParentJumpCommitId ∧
      j.generation + p.firstParentJumpSpan = p.generation ∧
      ((p.firstParentJumpSpan = j.firstParentJumpSpan ∧ jumpId = j.firstParentJumpCommitId ∧
          span = 1 + p.firstParentJumpSpan + j.firstParentJumpSpan) ∨
        (jumpId = p.commitId ∧ span = 1)) := by
  unfold nextFirstParentJump at h
  rcases parent with _ | p
  · cases h
  rcases parentJump with _ | j
  · simp only at h
    split at h <;> cases h
  simp only at h
  split at h
  · cases h
  rename_i hp
  split at h
  · cases h
  rename_i hj
  simp only [ne_eq, not_or, not_not] at hp hj
  obtain ⟨hjid, hsub⟩ := hj
  obtain ⟨hle, hspan⟩ := checkedSub_eq_some.mp hsub
  refine ⟨p, j, rfl, hp, rfl, hjid, by omega, ?_⟩
  split at h
  · cases h
    exact Or.inl ⟨‹_›, rfl, rfl⟩
  · cases h
    exact Or.inr ⟨rfl, rfl⟩

/-- A root or merge commit jumps to itself. -/
theorem nextFirstParentJump_of_not_single {commitId : CommitId} {parentCommitIds : List CommitId}
    (h : parentCommitIds.length ≠ 1) (parent parentJump : Option CommitGraphNode) :
    nextFirstParentJump commitId parentCommitIds parent parentJump = .ok (commitId, 0) := by
  unfold nextFirstParentJump
  split
  · simp at h
  · rfl

end Specs

end Jumps

/-- The nodes a reader can load, each decoded from its record. -/
structure CommitGraphStoreReader where
  nodes : List CommitGraphNode
  /-- `commit_graph_node_from_record` checked each node's jump summary. -/
  decoded : ∀ node ∈ nodes, validateFirstParentJumpSummary node = .ok ()

namespace CommitGraphStoreReader

variable (reader : CommitGraphStoreReader)

def loadNode (commitId : CommitId) : Option CommitGraphNode :=
  reader.nodes.find? (·.commitId == commitId)

/-- The generation stored for a commit, `0` when it is missing. -/
def generation (commitId : CommitId) : ℕ :=
  match reader.loadNode commitId with
  | some node => node.generation
  | none => 0

/-- The parents stored for a commit, none when it is missing. -/
def parents (commitId : CommitId) : List CommitId :=
  match reader.loadNode commitId with
  | some node => node.parentCommitIds
  | none => []

variable {reader}

theorem generation_of_loadNode {commitId : CommitId} {node : CommitGraphNode}
    (h : reader.loadNode commitId = some node) : reader.generation commitId = node.generation := by
  rw [generation, h]

theorem parents_of_loadNode {commitId : CommitId} {node : CommitGraphNode}
    (h : reader.loadNode commitId = some node) :
    reader.parents commitId = node.parentCommitIds := by
  rw [parents, h]

theorem mem_of_loadNode {commitId : CommitId} {node : CommitGraphNode}
    (h : reader.loadNode commitId = some node) : node ∈ reader.nodes ∧ node.commitId = commitId :=
  ⟨List.mem_of_find?_eq_some h, by simpa using List.find?_some h⟩

theorem mem_ids_of_loadNode {commitId : CommitId} {node : CommitGraphNode}
    (h : reader.loadNode commitId = some node) : commitId ∈ reader.nodes.map (·.commitId) := by
  obtain ⟨hmem, hid⟩ := mem_of_loadNode h
  exact List.mem_map.mpr ⟨node, hmem, hid⟩

end CommitGraphStoreReader

def missingCommitGraphError (commitId : CommitId) : LixError :=
  ⟨"LIX_COMMIT_NOT_FOUND", "commit '" ++ commitId.toString ++ "' was not found"⟩

def noCommonHistoryError (leftCommitId rightCommitId : CommitId) : LixError :=
  ⟨"LIX_ERROR_UNKNOWN", "commit_graph found no common history between '" ++
    leftCommitId.toString ++ "' and '" ++ rightCommitId.toString ++ "'"⟩

/-- `LixError::ambiguous_merge_base`; its details JSON is left out. -/
def ambiguousMergeBase (leftCommitId rightCommitId : CommitId) : LixError :=
  ⟨"LIX_AMBIGUOUS_MERGE_BASE", "ambiguous merge base between '" ++ leftCommitId.toString ++
    "' and '" ++ rightCommitId.toString ++ "'"⟩

end Lix.CommitGraph
