import Lix.CommitGraphMergeBase
import Lix.CommitGraphWalkerSpec

/-! `merge_base` agrees with the best common ancestors on every commit graph written the way
the changelog writes it: generations one more than the greatest parent's, and first-parent
jumps as `next_first_parent_jump` derives them. It returns the only best common ancestor,
fails with no common history when there is none and as ambiguous when there are several,
and fails as `best_common_ancestors` does when a head is missing.

The shortcuts are sound because a derived jump never leaves its lane: it is reached from
the commit through commits of one parent each. Lowering a head down its lane to no lower
than the other head, or both heads to two distinct commits of one generation, keeps the
common ancestors, and so the best ones. -/
namespace Lix.CommitGraph
open KeyCodec TrackedState SortedWalk Ancestry

section Invariants

/-- The record of a node's first parent, read when the node has exactly one parent. -/
def firstParentRecord (reader : CommitGraphStoreReader) (node : CommitGraphNode) :
    Option CommitGraphNode :=
  match node.parentCommitIds with
  | [parentId] => reader.loadNode parentId
  | _ => none

/-- Every stored commit's parents are stored, and its generation is one more than its
greatest parent's, `0` for a root. -/
def GenerationsDerived (reader : CommitGraphStoreReader) : Prop :=
  ∀ node ∈ reader.nodes, reader.loadNode node.commitId = some node →
    (∀ p ∈ node.parentCommitIds, (reader.loadNode p).isSome) ∧
      node.generation = (node.parentCommitIds.map fun p => reader.generation p + 1).foldr max 0

instance (reader : CommitGraphStoreReader) : Decidable (GenerationsDerived reader) := by
  unfold GenerationsDerived
  infer_instance

/-- Every stored commit's jump is the one `next_first_parent_jump` derives from the records
of its first parent and of that parent's jump. -/
def JumpsDerived (reader : CommitGraphStoreReader) : Prop :=
  ∀ node ∈ reader.nodes, reader.loadNode node.commitId = some node →
    nextFirstParentJump node.commitId node.parentCommitIds (firstParentRecord reader node)
        ((firstParentRecord reader node).bind fun parent =>
          reader.loadNode parent.firstParentJumpCommitId) =
      .ok (node.firstParentJumpCommitId, node.firstParentJumpSpan)

instance (reader : CommitGraphStoreReader) : Decidable (JumpsDerived reader) := by
  unfold JumpsDerived
  infer_instance

/-- A node's jump is stored at the generation its span gives, down the node's lane. -/
def JumpSound (reader : CommitGraphStoreReader) (node : CommitGraphNode) : Prop :=
  ∃ jump, reader.loadNode node.firstParentJumpCommitId = some jump ∧
    jump.generation + node.firstParentJumpSpan = node.generation ∧
    LinearDescent reader.parents node.commitId jump.commitId

variable {reader : CommitGraphStoreReader}

theorem firstParentRecord_of_parents_eq {node : CommitGraphNode} {p : CommitId}
    (hp : node.parentCommitIds = [p]) : firstParentRecord reader node = reader.loadNode p := by
  rw [firstParentRecord, hp]

theorem parentsBelow_of_generationsDerived (hgen : GenerationsDerived reader) :
    ParentsBelow reader := by
  intro node hmem hload p hp
  obtain ⟨hloaded, hgeneration⟩ := hgen node hmem hload
  obtain ⟨parent, hparent⟩ := Option.isSome_iff_exists.mp (hloaded p hp)
  rw [hparent, Option.any_some, decide_eq_true_iff]
  have hle : reader.generation p + 1 ≤ node.generation := by
    rw [hgeneration]
    exact List.le_max_of_le' 0 (List.mem_map_of_mem hp) le_rfl
  rw [CommitGraphStoreReader.generation_of_loadNode hparent] at hle
  omega

/-- A linear commit's only parent is stored one generation below it. -/
theorem parent_of_linear (hgen : GenerationsDerived reader) {c p : CommitId}
    {node : CommitGraphNode} (hload : reader.loadNode c = some node)
    (hp : node.parentCommitIds = [p]) :
    ∃ parent, reader.loadNode p = some parent ∧ parent.generation + 1 = node.generation := by
  obtain ⟨hmem, rfl⟩ := CommitGraphStoreReader.mem_of_loadNode hload
  obtain ⟨hloaded, hgeneration⟩ := hgen node hmem hload
  obtain ⟨parent, hparent⟩ := Option.isSome_iff_exists.mp (hloaded p (by rw [hp]; exact List.mem_singleton_self p))
  refine ⟨parent, hparent, ?_⟩
  rw [hgeneration, hp]
  simp [CommitGraphStoreReader.generation_of_loadNode hparent]

/-- Every derived jump is sound, by induction on the generation: a composed jump is the
parent's jump followed by that jump's own, both sound one generation down. -/
theorem jumpSound_of_lt (hgen : GenerationsDerived reader) (hjump : JumpsDerived reader) :
    ∀ n c node, reader.loadNode c = some node → node.generation < n → JumpSound reader node := by
  intro n
  induction n with
  | zero => intro c node _ hlt; omega
  | succ n ih =>
    intro c node hload hlt
    obtain ⟨hmem, rfl⟩ := CommitGraphStoreReader.mem_of_loadNode hload
    have hderived := hjump node hmem hload
    by_cases hlen : node.parentCommitIds.length = 1
    · obtain ⟨p, hp⟩ := List.length_eq_one_iff.mp hlen
      rw [firstParentRecord_of_parents_eq hp, hp] at hderived
      obtain ⟨parent, j, hparent, hpid, hj, hjid, hjgen, hcases⟩ :=
        nextFirstParentJump_eq_ok_of_single hderived
      rw [hparent, Option.bind_some] at hj
      obtain ⟨parent', hparent', hpgen⟩ := parent_of_linear hgen hload hp
      rw [hparent, Option.some.injEq] at hparent'
      subst hparent'
      have hstep : LinearDescent reader.parents node.commitId p :=
        linearDescent_of_parents_eq (by rw [CommitGraphStoreReader.parents_of_loadNode hload, hp])
      rcases hcases with ⟨-, hjumpId, hspan⟩ | ⟨hjumpId, hspan⟩
      · -- the composed jump: the parent's jump, then that jump's own
        obtain ⟨j', hj', -, hpj⟩ := ih p parent hparent (by omega)
        rw [hj, Option.some.injEq] at hj'
        subst hj'
        obtain ⟨jj, hjj, hjjgen, hjd⟩ := ih _ j hj (by omega)
        refine ⟨jj, by rw [hjumpId]; exact hjj, by omega, ?_⟩
        rw [← hpid] at hstep
        exact hstep.trans (hpj.trans hjd)
      · -- the jump to the parent
        refine ⟨parent, by rw [hjumpId, hpid]; exact hparent, by omega, ?_⟩
        rw [hpid]
        exact hstep
    · -- a root or merge commit jumps to itself
      rw [nextFirstParentJump_of_not_single hlen, Except.ok.injEq, Prod.mk.injEq] at hderived
      obtain ⟨hjumpId, hspan⟩ := hderived
      exact ⟨node, by rw [← hjumpId]; exact hload, by omega, Relation.ReflTransGen.refl⟩

theorem jumpSound (hgen : GenerationsDerived reader) (hjump : JumpsDerived reader) {c : CommitId}
    {node : CommitGraphNode} (hload : reader.loadNode c = some node) : JumpSound reader node :=
  jumpSound_of_lt hgen hjump _ c node hload (Nat.lt_succ_self _)

end Invariants

section Paths

variable {reader : CommitGraphStoreReader} (hgen : GenerationsDerived reader)
  (hjump : JumpsDerived reader)

theorem loadLinearJump_of_jump {node jump : CommitGraphNode}
    (hj : reader.loadNode node.firstParentJumpCommitId = some jump)
    (hgeneration : jump.generation + node.firstParentJumpSpan = node.generation) :
    loadLinearJump reader node = .ok jump := by
  have hid := (CommitGraphStoreReader.mem_of_loadNode hj).2
  unfold loadLinearJump
  rw [NodeTraversalLoader.loadNode_eq_ok.mpr hj]
  simp only [bind, Except.bind]
  rw [validateFirstParentJump_eq_ok.mpr ⟨hid, hgeneration⟩]
  rfl

theorem loadLinearParent_of_lt {child parent : CommitGraphNode} {parentId : CommitId}
    (hp : reader.loadNode parentId = some parent) (hlt : parent.generation < child.generation) :
    loadLinearParent reader child parentId = .ok parent := by
  unfold loadLinearParent
  rw [NodeTraversalLoader.loadNode_eq_ok.mpr hp]
  simp only [bind, Except.bind]
  rw [validateParentGeneration_eq_ok.mpr hlt]
  rfl

include hgen hjump

/-- A round of the first loop never fails; the head it lowers to is stored, down the
deeper head's lane, and no lower than the target. -/
theorem lowerDeeper_sound {deeper : CommitGraphNode} {target : ℕ}
    (hload : reader.loadNode deeper.commitId = some deeper) (hlt : target < deeper.generation) :
    ∃ r, lowerDeeper reader deeper target = .ok r ∧ ∀ lowered, r = some lowered →
      reader.loadNode lowered.commitId = some lowered ∧
        LinearDescent reader.parents deeper.commitId lowered.commitId ∧
        target ≤ lowered.generation := by
  unfold lowerDeeper
  split
  · rename_i parentId hp
    obtain ⟨jump, hj, hjgen, hjd⟩ := jumpSound hgen hjump hload
    rw [loadLinearJump_of_jump hj hjgen]
    simp only [bind, Except.bind]
    split
    · -- the jump stays at or above the target
      rename_i hge
      refine ⟨some jump, rfl, fun lowered hsome => ?_⟩
      cases hsome
      refine ⟨?_, hjd, hge⟩
      rw [(CommitGraphStoreReader.mem_of_loadNode hj).2]
      exact hj
    · -- the jump overshoots: one step to the parent
      obtain ⟨parent, hparent, hpgen⟩ := parent_of_linear hgen hload hp
      rw [loadLinearParent_of_lt hparent (by omega)]
      refine ⟨some parent, rfl, fun lowered hsome => ?_⟩
      cases hsome
      have hpid := (CommitGraphStoreReader.mem_of_loadNode hparent).2
      rw [hpid]
      refine ⟨hparent, linearDescent_of_parents_eq ?_, by omega⟩
      rw [CommitGraphStoreReader.parents_of_loadNode hload, hp]
  · exact ⟨none, rfl, fun _ h => by cases h⟩

/-- The first loop never fails, and leaves two stored heads of one generation with the
common ancestors of the heads it started from. -/
theorem equalizeGenerations_sound (fuel : ℕ) (left right : CommitGraphNode)
    (hl : reader.loadNode left.commitId = some left)
    (hr : reader.loadNode right.commitId = some right)
    {result : Except LixError (Option (CommitGraphNode × CommitGraphNode))}
    (h : equalizeGenerations reader fuel left right = some result) :
    ∃ r, result = .ok r ∧ ∀ left' right', r = some (left', right') →
      reader.loadNode left'.commitId = some left' ∧
        reader.loadNode right'.commitId = some right' ∧
        left'.generation = right'.generation ∧
        ∀ d, CommonAncestor reader.parents left.commitId right.commitId d ↔
          CommonAncestor reader.parents left'.commitId right'.commitId d := by
  have hrank := generation_lt_of_mem_parents (parentsBelow_of_generationsDerived hgen)
  fun_induction equalizeGenerations reader fuel left right with
  | case1 left right => cases h
  | case2 fuel left right heq =>
    refine ⟨_, (Option.some.inj h).symm, fun left' right' hsome => ?_⟩
    cases hsome
    exact ⟨hl, hr, heq, fun d => Iff.rfl⟩
  | case3 fuel left right hne hgt e herr =>
    obtain ⟨r, hok, -⟩ := lowerDeeper_sound hgen hjump hl hgt
    rw [hok] at herr
    cases herr
  | case4 fuel left right hne hgt hnone =>
    exact ⟨none, (Option.some.inj h).symm, fun _ _ h => by cases h⟩
  | case5 fuel left right hne hgt left₁ hlower ih =>
    obtain ⟨r, hok, hlowered⟩ := lowerDeeper_sound hgen hjump hl hgt
    rw [hok] at hlower
    cases hlower
    obtain ⟨hl₁, hdesc, hge⟩ := hlowered left₁ rfl
    obtain ⟨r, hres, hspec⟩ := ih hl₁ hr h
    refine ⟨r, hres, fun left' right' hsome => ?_⟩
    obtain ⟨hl', hr', hg', hcommon⟩ := hspec left' right' hsome
    refine ⟨hl', hr', hg', fun d => ?_⟩
    rw [← hcommon d]
    apply commonAncestor_iff_of_linearDescent _ hrank hdesc
    rw [CommitGraphStoreReader.generation_of_loadNode hr,
      CommitGraphStoreReader.generation_of_loadNode hl₁]
    exact hge
  | case6 fuel left right hne hle e herr =>
    have hlt : left.generation < right.generation := by omega
    obtain ⟨r, hok, -⟩ := lowerDeeper_sound hgen hjump hr hlt
    rw [hok] at herr
    cases herr
  | case7 fuel left right hne hle hnone =>
    exact ⟨none, (Option.some.inj h).symm, fun _ _ h => by cases h⟩
  | case8 fuel left right hne hle right₁ hlower ih =>
    have hlt : left.generation < right.generation := by omega
    obtain ⟨r, hok, hlowered⟩ := lowerDeeper_sound hgen hjump hr hlt
    rw [hok] at hlower
    cases hlower
    obtain ⟨hr₁, hdesc, hge⟩ := hlowered right₁ rfl
    obtain ⟨r, hres, hspec⟩ := ih hl hr₁ h
    refine ⟨r, hres, fun left' right' hsome => ?_⟩
    obtain ⟨hl', hr', hg', hcommon⟩ := hspec left' right' hsome
    refine ⟨hl', hr', hg', fun d => ?_⟩
    rw [← hcommon d, commonAncestor_comm, commonAncestor_comm (l := left.commitId)]
    apply commonAncestor_iff_of_linearDescent _ hrank hdesc
    rw [CommitGraphStoreReader.generation_of_loadNode hl,
      CommitGraphStoreReader.generation_of_loadNode hr₁]
    exact hge

/-- A round of the second loop never fails; it leaves two stored heads of one generation
with the same common ancestors. Jumps that meet are not taken, since the lanes may join
above them; the heads step to their parents instead. -/
theorem meetStep_sound {left right : CommitGraphNode} {leftParentId rightParentId : CommitId}
    (hl : reader.loadNode left.commitId = some left)
    (hr : reader.loadNode right.commitId = some right)
    (hlp : left.parentCommitIds = [leftParentId]) (hrp : right.parentCommitIds = [rightParentId])
    (hg : left.generation = right.generation) (hne : left.commitId ≠ right.commitId) :
    ∃ r, meetStep reader left right leftParentId rightParentId = .ok r ∧
      ∀ left' right', r = some (left', right') →
        reader.loadNode left'.commitId = some left' ∧
          reader.loadNode right'.commitId = some right' ∧
          left'.generation = right'.generation ∧
          ∀ d, CommonAncestor reader.parents left.commitId right.commitId d ↔
            CommonAncestor reader.parents left'.commitId right'.commitId d := by
  have hrank := generation_lt_of_mem_parents (parentsBelow_of_generationsDerived hgen)
  obtain ⟨leftJump, hlj, hljgen, hljd⟩ := jumpSound hgen hjump hl
  obtain ⟨rightJump, hrj, hrjgen, hrjd⟩ := jumpSound hgen hjump hr
  have hljid := (CommitGraphStoreReader.mem_of_loadNode hlj).2
  have hrjid := (CommitGraphStoreReader.mem_of_loadNode hrj).2
  unfold meetStep
  rw [NodeTraversalLoader.loadNode_eq_ok.mpr hlj, NodeTraversalLoader.loadNode_eq_ok.mpr hrj]
  simp only [bind, Except.bind, validateFirstParentJump_eq_ok.mpr ⟨hljid, hljgen⟩,
    validateFirstParentJump_eq_ok.mpr ⟨hrjid, hrjgen⟩]
  by_cases hjg : leftJump.generation = rightJump.generation
  · rw [if_neg (not_not.mpr hjg)]
    by_cases hjid : leftJump.commitId = rightJump.commitId
    · -- the jumps meet: both heads step to their parents, one generation down
      rw [if_pos hjid]
      obtain ⟨leftParent, hlpl, hlpg⟩ := parent_of_linear hgen hl hlp
      obtain ⟨rightParent, hrpl, hrpg⟩ := parent_of_linear hgen hr hrp
      rw [NodeTraversalLoader.loadNode_eq_ok.mpr hlpl, NodeTraversalLoader.loadNode_eq_ok.mpr hrpl]
      simp only [validateParentGeneration_eq_ok.mpr (show leftParent.generation < left.generation by omega),
        validateParentGeneration_eq_ok.mpr (show rightParent.generation < right.generation by omega)]
      refine ⟨_, rfl, fun left' right' hsome => ?_⟩
      cases hsome
      have hlpid := (CommitGraphStoreReader.mem_of_loadNode hlpl).2
      have hrpid := (CommitGraphStoreReader.mem_of_loadNode hrpl).2
      refine ⟨hlpid ▸ hlpl, hrpid ▸ hrpl, by omega, fun d => ?_⟩
      rw [hlpid, hrpid]
      apply commonAncestor_iff_of_parents_eq _ hrank
        (by rw [CommitGraphStoreReader.parents_of_loadNode hl, hlp])
        (by rw [CommitGraphStoreReader.parents_of_loadNode hr, hrp])
        (by rw [CommitGraphStoreReader.generation_of_loadNode hl,
          CommitGraphStoreReader.generation_of_loadNode hr, hg]) hne
    · -- distinct jumps of one generation: both heads take them
      rw [if_neg hjid]
      refine ⟨_, rfl, fun left' right' hsome => ?_⟩
      cases hsome
      refine ⟨hljid ▸ hlj, hrjid ▸ hrj, by omega, fun d => ?_⟩
      apply commonAncestor_iff_of_linearDescent_both _ hrank hljd hrjd _ hjid
      rw [CommitGraphStoreReader.generation_of_loadNode (hljid ▸ hlj),
        CommitGraphStoreReader.generation_of_loadNode (hrjid ▸ hrj), hjg]
  · rw [if_pos hjg]
    exact ⟨none, rfl, fun _ _ h => by cases h⟩

end Paths

/-- What a result of the linear walk says about the best common ancestors of two heads. -/
def LinearMergeBase.Settles (reader : CommitGraphStoreReader) (left right : CommitId) :
    LinearMergeBase → Prop
  | .resolved base => ∀ c, BestCommonAncestor reader.parents left right c ↔ c = base
  | .disconnected => ∀ c, ¬CommonAncestor reader.parents left right c
  | .generalGraph => True

theorem LinearMergeBase.Settles.of_commonAncestor_iff {reader : CommitGraphStoreReader}
    {left right left' right' : CommitId} {m : LinearMergeBase}
    (h : ∀ d, CommonAncestor reader.parents left right d ↔
      CommonAncestor reader.parents left' right' d)
    (hm : m.Settles reader left' right') : m.Settles reader left right := by
  cases m with
  | resolved base =>
    intro c
    rw [bestCommonAncestor_congr h]
    exact hm c
  | disconnected =>
    intro c
    rw [h c]
    exact hm c
  | generalGraph => trivial

section Walk

variable {reader : CommitGraphStoreReader} (hgen : GenerationsDerived reader)
  (hjump : JumpsDerived reader)
include hgen hjump

/-- The second loop never fails, and what it settles is right: heads that meet are the one
best common ancestor, and two distinct roots have no common ancestor. -/
theorem meetLinear_sound (fuel : ℕ) (left right : CommitGraphNode)
    (hl : reader.loadNode left.commitId = some left)
    (hr : reader.loadNode right.commitId = some right) (hg : left.generation = right.generation)
    {result : Except LixError LinearMergeBase} (h : meetLinear reader fuel left right = some result) :
    ∃ m, result = .ok m ∧ m.Settles reader left.commitId right.commitId := by
  have hrank := generation_lt_of_mem_parents (parentsBelow_of_generationsDerived hgen)
  fun_induction meetLinear reader fuel left right with
  | case1 left right => cases h
  | case2 fuel left right heq =>
    refine ⟨_, (Option.some.inj h).symm, fun c => ?_⟩
    rw [heq]
    exact bestCommonAncestor_self_iff _ hrank
  | case3 fuel left right hne lp rp hrp hlp e herr =>
    obtain ⟨r, hok, -⟩ := meetStep_sound hgen hjump hl hr hlp hrp hg hne
    rw [hok] at herr
    cases herr
  | case4 fuel left right hne lp rp hrp hlp hnone =>
    exact ⟨.generalGraph, (Option.some.inj h).symm, trivial⟩
  | case5 fuel left right hne lp rp hrp hlp left₁ right₁ hstep ih =>
    obtain ⟨r, hok, hspec⟩ := meetStep_sound hgen hjump hl hr hlp hrp hg hne
    rw [hok] at hstep
    cases hstep
    obtain ⟨hl₁, hr₁, hg₁, hcommon⟩ := hspec left₁ right₁ rfl
    obtain ⟨m, hres, hsettles⟩ := ih hl₁ hr₁ hg₁ h
    exact ⟨m, hres, hsettles.of_commonAncestor_iff hcommon⟩
  | case6 fuel left right hne hsingle =>
    refine ⟨_, (Option.some.inj h).symm, ?_⟩
    split
    · -- two distinct roots of one generation
      rename_i hroots
      intro c
      apply not_commonAncestor_of_parents_eq_nil _ hrank _ _ hne
      · rw [CommitGraphStoreReader.parents_of_loadNode hl]
        exact List.isEmpty_iff.mp hroots.1
      · rw [CommitGraphStoreReader.generation_of_loadNode hl,
          CommitGraphStoreReader.generation_of_loadNode hr, hg]
    · trivial

/-- `linear_merge_base` never fails on two stored heads, and what it settles is right. -/
theorem linearMergeBase_sound {left right : CommitGraphNode}
    (hl : reader.loadNode left.commitId = some left)
    (hr : reader.loadNode right.commitId = some right) :
    ∃ m, linearMergeBase reader left right = .ok m ∧
      m.Settles reader left.commitId right.commitId := by
  have hsome := equalizeGenerations_isSome reader left right
  obtain ⟨r, hres, hspec⟩ :=
    equalizeGenerations_sound hgen hjump _ left right hl hr (Option.some_get hsome).symm
  unfold linearMergeBase
  rw [hres]
  simp only [bind, Except.bind]
  rcases r with _ | ⟨left', right'⟩
  · exact ⟨.generalGraph, rfl, trivial⟩
  · obtain ⟨hl', hr', hg', hcommon⟩ := hspec left' right' rfl
    have hsome' := meetLinear_isSome reader left' right'
    obtain ⟨m, hm, hsettles⟩ :=
      meetLinear_sound hgen hjump _ left' right' hl' hr' hg' (Option.some_get hsome').symm
    exact ⟨m, hm, hsettles.of_commonAncestor_iff hcommon⟩

end Walk

/-- What `merge_base` promises over the best common ancestors: the only one, no common
history for none, an ambiguous base for several. -/
def mergeBaseOfBest (leftCommitId rightCommitId : CommitId) :
    List CommitId → Except LixError CommitId
  | [] => .error (noCommonHistoryError leftCommitId rightCommitId)
  | [base] => .ok base
  | _ :: _ :: _ => .error (ambiguousMergeBase leftCommitId rightCommitId)

theorem mergeBaseOfBest_eq_ok {left right base : CommitId} {ids : List CommitId} :
    mergeBaseOfBest left right ids = .ok base ↔ ids = [base] := by
  rcases ids with _ | ⟨a, _ | ⟨b, rest⟩⟩ <;> simp [mergeBaseOfBest]

theorem sharedSingleParent_eq_some {left right : CommitGraphNode} {p : CommitId}
    (h : sharedSingleParent left right = some p) :
    left.parentCommitIds = [p] ∧ right.parentCommitIds = [p] := by
  unfold sharedSingleParent at h
  split at h
  · rename_i lp rp hlp hrp
    split at h
    · rename_i hsame
      cases h
      exact ⟨hlp, hsame ▸ hrp⟩
    · cases h
  · cases h

section Answer

variable {reader : CommitGraphStoreReader}

theorem bestCommonAncestors_bind_of_unique (hwf : ParentsBelow reader) {left right : CommitId}
    (hl : (reader.loadNode left).isSome) (hr : (reader.loadNode right).isSome) (base : CommitId)
    (h : ∀ c, BestCommonAncestor reader.parents left right c ↔ c = base) :
    (bestCommonAncestors reader left right >>= fun ancestors =>
      mergeBaseOfBest left right (ancestors.map (·.commitId))) = .ok base := by
  obtain ⟨nodes, hnodes, hsorted, hmem⟩ := bestCommonAncestors_eq_ok hwf hl hr
  have hids : nodes.map (·.commitId) = [base] := by
    apply StrictlySorted.eq_of_mem_iff id hsorted (List.pairwise_singleton _ _)
    intro c
    rw [hmem, h, List.mem_singleton]
  rw [hnodes]
  change mergeBaseOfBest left right (nodes.map (·.commitId)) = .ok base
  rw [hids]
  rfl

theorem bestCommonAncestors_bind_of_none (hwf : ParentsBelow reader) {left right : CommitId}
    (hl : (reader.loadNode left).isSome) (hr : (reader.loadNode right).isSome)
    (h : ∀ c, ¬CommonAncestor reader.parents left right c) :
    (bestCommonAncestors reader left right >>= fun ancestors =>
      mergeBaseOfBest left right (ancestors.map (·.commitId))) =
      .error (noCommonHistoryError left right) := by
  obtain ⟨nodes, hnodes, -, hmem⟩ := bestCommonAncestors_eq_ok hwf hl hr
  have hids : nodes.map (·.commitId) = [] :=
    List.eq_nil_iff_forall_not_mem.mpr fun c hc => h c ((hmem c).mp hc).1
  rw [hnodes]
  change mergeBaseOfBest left right (nodes.map (·.commitId)) = _
  rw [hids]
  rfl

variable (hgen : GenerationsDerived reader) (hjump : JumpsDerived reader)
include hgen hjump

/-- `merge_base` on two stored heads, one shortcut at a time. -/
theorem mergeBase_of_loaded {left right : CommitId} {leftNode rightNode : CommitGraphNode}
    (hL : reader.loadNode left = some leftNode) (hR : reader.loadNode right = some rightNode) :
    mergeBase reader left right =
      (bestCommonAncestors reader left right >>= fun ancestors =>
        mergeBaseOfBest left right (ancestors.map (·.commitId))) := by
  have hwf := parentsBelow_of_generationsDerived hgen
  have hrank := generation_lt_of_mem_parents hwf
  obtain ⟨-, hlid⟩ := CommitGraphStoreReader.mem_of_loadNode hL
  obtain ⟨-, hrid⟩ := CommitGraphStoreReader.mem_of_loadNode hR
  have hl : (reader.loadNode left).isSome := by rw [hL]; rfl
  have hr : (reader.loadNode right).isSome := by rw [hR]; rfl
  have hunique := bestCommonAncestors_bind_of_unique hwf hl hr
  unfold mergeBase
  rw [NodeTraversalLoader.loadNode_eq_ok.mpr hL, NodeTraversalLoader.loadNode_eq_ok.mpr hR]
  simp only [bind, Except.bind]
  split_ifs with heq hlp hrp
  · -- equal heads
    subst heq
    exact (hunique left fun c => bestCommonAncestor_self_iff _ hrank).symm
  · -- the right head is the left one's only parent
    obtain ⟨parent, hparent, hpgen⟩ := parent_of_linear hgen hL hlp
    rw [hR, Option.some.injEq] at hparent
    subst hparent
    rw [validateParentGeneration_eq_ok.mpr (by omega)]
    have hanc : Ancestor reader.parents left right := ancestor_of_mem_parents
      (by rw [CommitGraphStoreReader.parents_of_loadNode hL, hlp]; exact List.mem_singleton_self _)
    exact (hunique right fun c =>
      bestCommonAncestor_comm.trans (bestCommonAncestor_iff_of_ancestor _ hrank hanc)).symm
  · -- the left head is the right one's only parent
    obtain ⟨parent, hparent, hpgen⟩ := parent_of_linear hgen hR hrp
    rw [hL, Option.some.injEq] at hparent
    subst hparent
    rw [validateParentGeneration_eq_ok.mpr (by omega)]
    have hanc : Ancestor reader.parents right left := ancestor_of_mem_parents
      (by rw [CommitGraphStoreReader.parents_of_loadNode hR, hrp]; exact List.mem_singleton_self _)
    exact (hunique left fun c => bestCommonAncestor_iff_of_ancestor _ hrank hanc).symm
  · cases hshared : sharedSingleParent leftNode rightNode with
    | some p =>
      obtain ⟨hlp', hrp'⟩ := sharedSingleParent_eq_some hshared
      obtain ⟨parent, hparent, hlgen⟩ := parent_of_linear hgen hL hlp'
      obtain ⟨parent', hparent', hrgen⟩ := parent_of_linear hgen hR hrp'
      rw [hparent, Option.some.injEq] at hparent'
      subst hparent'
      dsimp only
      rw [NodeTraversalLoader.loadNode_eq_ok.mpr hparent]
      simp only [validateParentGeneration_eq_ok.mpr (show parent.generation < leftNode.generation by omega),
        validateParentGeneration_eq_ok.mpr (show parent.generation < rightNode.generation by omega)]
      refine (hunique p fun c => ?_).symm
      rw [bestCommonAncestor_congr fun d => commonAncestor_iff_of_parents_eq _ hrank
        (by rw [CommitGraphStoreReader.parents_of_loadNode hL, hlp'])
        (by rw [CommitGraphStoreReader.parents_of_loadNode hR, hrp'])
        (by rw [CommitGraphStoreReader.generation_of_loadNode hL,
          CommitGraphStoreReader.generation_of_loadNode hR]; omega) heq]
      exact bestCommonAncestor_self_iff _ hrank
    | none =>
      obtain ⟨m, hm, hsettles⟩ := linearMergeBase_sound hgen hjump (hlid ▸ hL) (hrid ▸ hR)
      rw [hlid, hrid] at hsettles
      dsimp only
      rw [hm]
      cases m with
      | resolved base => exact (hunique base hsettles).symm
      | disconnected => exact (bestCommonAncestors_bind_of_none hwf hl hr hsettles).symm
      | generalGraph =>
        change Except.bind _ _ = Except.bind _ _
        congr 1
        funext ancestors
        rcases ancestors with _ | ⟨a, _ | ⟨b, rest⟩⟩ <;> rfl

/-- On every history written the changelog's way, `merge_base` answers with the best
common ancestors: the only one, an error when there is none or several, and the walk's own
error when a head is missing. -/
theorem mergeBase_agrees_with_bestCommonAncestors (left right : CommitId) :
    mergeBase reader left right =
        (bestCommonAncestors reader left right >>= fun ancestors =>
          mergeBaseOfBest left right (ancestors.map (·.commitId))) ∧
      ∀ base, mergeBase reader left right = .ok base ↔
        ∃ node, bestCommonAncestors reader left right = .ok [node] ∧ node.commitId = base := by
  have heq : mergeBase reader left right =
      (bestCommonAncestors reader left right >>= fun ancestors =>
        mergeBaseOfBest left right (ancestors.map (·.commitId))) := by
    cases hL : reader.loadNode left with
    | none =>
      unfold mergeBase bestCommonAncestors bestCommonIds
      rw [NodeTraversalLoader.loadNode, hL]
      rfl
    | some leftNode =>
      cases hR : reader.loadNode right with
      | none =>
        unfold mergeBase bestCommonAncestors bestCommonIds
        rw [NodeTraversalLoader.loadNode_eq_ok.mpr hL, NodeTraversalLoader.loadNode, hR]
        rfl
      | some rightNode => exact mergeBase_of_loaded hgen hjump hL hR
  refine ⟨heq, fun base => ?_⟩
  rw [heq]
  cases hbest : bestCommonAncestors reader left right with
  | error e => simp [bind, Except.bind]
  | ok nodes =>
    change mergeBaseOfBest left right (nodes.map (·.commitId)) = .ok base ↔ _
    rw [mergeBaseOfBest_eq_ok, List.map_eq_singleton_iff]
    simp

end Answer

/-- A history written the changelog's way: a root, a first-parent chain of three commits on
it, and a branch off the chain's first commit. -/
def branchedReader : CommitGraphStoreReader where
  nodes := [⟨sampleCommitId 0, 0, [], sampleCommitId 0, 0⟩,
    ⟨sampleCommitId 1, 1, [sampleCommitId 0], sampleCommitId 0, 1⟩,
    ⟨sampleCommitId 2, 2, [sampleCommitId 1], sampleCommitId 1, 1⟩,
    ⟨sampleCommitId 3, 3, [sampleCommitId 2], sampleCommitId 0, 3⟩,
    ⟨sampleCommitId 5, 2, [sampleCommitId 1], sampleCommitId 1, 1⟩]
  decoded := by decide

theorem mergeBase_agrees_with_bestCommonAncestors_branched :
    GenerationsDerived branchedReader ∧ JumpsDerived branchedReader ∧
      mergeBase branchedReader (sampleCommitId 3) (sampleCommitId 5) =
        (bestCommonAncestors branchedReader (sampleCommitId 3) (sampleCommitId 5) >>=
          fun ancestors => mergeBaseOfBest (sampleCommitId 3) (sampleCommitId 5)
            (ancestors.map (·.commitId))) :=
  ⟨by decide, by decide,
    (mergeBase_agrees_with_bestCommonAncestors (by decide) (by decide) _ _).1⟩

-- the linear walk: the deeper head steps to its parent, then both jumps meet
example : mergeBase branchedReader (sampleCommitId 3) (sampleCommitId 5) = .ok (sampleCommitId 1) := by
  decide +kernel

end Lix.CommitGraph
