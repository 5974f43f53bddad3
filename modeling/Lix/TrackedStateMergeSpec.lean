import Lix.TrackedStateMergeSteps

/-! The merge planner against its specification. The `while` loop of `plan_sorted_merge`
and its tail loop are one left fold over the events of the merge join of the two sides;
on sides sorted by identity the join's events are filters of the source side, which turns
the plan into a closed form: the source-only entries' rows, and a conflict for each shared
identity whose final states diverge. -/
namespace Lix.TrackedState
open KeyCodec SortedWalk ExceptSpec

section Fold

variable (rowPkText : RowPk → Except LixError String) (payloads : MergePayloadOwners)

/-- What the planner does at one event of the merge join. -/
def mergeStep (plan : TrackedStateMergePlan) :
    Step TrackedStateDiffEntry TrackedStateDiffEntry → Except LixError TrackedStateMergePlan
  | .left _ => pure plan
  | .right source => pushPick rowPkText plan source
  | .both target source =>
    pure (if !sameFinalState target source payloads then
      { plan with conflicts := plan.conflicts ++ [mergeConflict target source] } else plan)

/-- The conflict, if any, a pair of entries with one identity yields. -/
def mergeConflict? (pair : TrackedStateDiffEntry × TrackedStateDiffEntry) :
    Option TrackedStateMergeConflict :=
  if !sameFinalState pair.1 pair.2 payloads then some (mergeConflict pair.1 pair.2) else none

theorem foldlM_mergeStep_lefts (targets : List TrackedStateDiffEntry)
    (plan : TrackedStateMergePlan) :
    (targets.map Step.left).foldlM (mergeStep rowPkText payloads) plan = pure plan := by
  induction targets with
  | nil => rfl
  | cons target targets ih =>
    rw [List.map_cons, List.foldlM_cons]
    exact ih

/-- The loop and the tail loop of `plan_sorted_merge` fold `mergeStep` over the join. -/
theorem planSortedMergeLoop_foldlM (target source : List TrackedStateDiffEntry)
    (plan : TrackedStateMergePlan) :
    (planSortedMergeLoop rowPkText payloads target source plan).bind
        (fun result => result.2.foldlM (pushPick rowPkText) result.1) =
      (walk (·.identity) (·.identity) target source).foldlM (mergeStep rowPkText payloads) plan := by
  fun_induction planSortedMergeLoop rowPkText payloads target source plan with
  | case1 target targets source sources plan hlt ih =>
    rw [ih, walk_lt _ _ _ _ hlt, List.foldlM_cons]
    rfl
  | case2 target targets source sources plan hgt ih =>
    rw [walk_gt _ _ _ _ hgt, List.foldlM_cons]
    simp only [mergeStep]
    cases pushPick rowPkText plan source with
    | error e => rfl
    | ok plan' => exact ih plan'
  | case3 target targets source sources plan heq hdiv ih =>
    rw [ih, walk_eq _ _ _ _ heq, List.foldlM_cons]
    simp only [mergeStep, if_pos hdiv]
    rfl
  | case4 target targets source sources plan heq hsame ih =>
    rw [ih, walk_eq _ _ _ _ heq, List.foldlM_cons]
    simp only [mergeStep, if_neg hsame]
    rfl
  | case5 target source plan hshort =>
    rcases target with _ | ⟨t, ts⟩
    · rw [walk_nil_left, List.foldlM_map]
      rfl
    · rcases source with _ | ⟨s, ss⟩
      · rw [walk_nil_right, foldlM_mergeStep_lefts]
        rfl
      · exact absurd rfl (hshort t ts s ss rfl)

/-- Folding the planner's step over any run of join events: the picks are the right-only
events' picks, failing at the first without a row, and the conflicts come from the
matched pairs. -/
theorem foldlM_mergeStep (events : List (Step TrackedStateDiffEntry TrackedStateDiffEntry))
    (plan : TrackedStateMergePlan) :
    events.foldlM (mergeStep rowPkText payloads) plan =
      ((events.filterMap Step.getRight?).mapM (sourceChangePick rowPkText)).bind fun picks =>
        pure { picks := plan.picks ++ picks,
               conflicts := plan.conflicts ++
                 (events.filterMap Step.getBoth?).filterMap (mergeConflict? payloads) } := by
  induction events generalizing plan with
  | nil => simp [Except.bind, pure, Except.pure]
  | cons event events ih =>
    rw [List.foldlM_cons]
    cases event with
    | left target =>
      simp only [mergeStep, List.filterMap_cons, Step.getRight?_left, Step.getBoth?_left]
      exact ih plan
    | right source =>
      simp only [mergeStep, pushPick, List.filterMap_cons, Step.getRight?_right,
        Step.getBoth?_right, List.mapM_cons]
      cases sourceChangePick rowPkText source with
      | error e => rfl
      | ok pick =>
        simp only [bind, Except.bind, pure, Except.pure]
        rw [ih]
        cases (events.filterMap Step.getRight?).mapM (sourceChangePick rowPkText) with
        | error e => rfl
        | ok picks =>
          simp only [Except.bind, List.append_assoc, List.singleton_append]
          rfl
    | both target source =>
      simp only [mergeStep, List.filterMap_cons, Step.getRight?_both, Step.getBoth?_both,
        pure_bind, ih]
      cases (events.filterMap Step.getRight?).mapM (sourceChangePick rowPkText) with
      | error e => rfl
      | ok picks =>
        unfold mergeConflict?
        split <;> simp [Except.bind, pure, Except.pure, *]

theorem planSortedMerge_eq_bind (target source : List TrackedStateDiffEntry) :
    planSortedMerge rowPkText target source payloads =
      (planSortedMergeLoop rowPkText payloads target source default).bind
        (fun result => result.2.foldlM (pushPick rowPkText) result.1) := rfl

/-- On sides strictly sorted by identity, `plan_sorted_merge` picks the source entries the
target lacks, in source order, and looks each shared identity up in the target. -/
theorem planSortedMerge_of_sorted {target source : List TrackedStateDiffEntry}
    (ht : StrictlySorted (·.identity) target) (hs : StrictlySorted (·.identity) source) :
    planSortedMerge rowPkText target source payloads =
      ((source.filter fun entry => entry.identity ∉ identities target).mapM
          (sourceChangePick rowPkText)).bind fun picks =>
        pure { picks := picks,
               conflicts := (source.filterMap fun entry =>
                 (target.find? (·.identity = entry.identity)).map (·, entry)).filterMap
                   (mergeConflict? payloads) } := by
  rw [planSortedMerge_eq_bind, planSortedMergeLoop_foldlM, foldlM_mergeStep,
    rights_walk _ _ ht hs, boths_walk _ _ ht hs]
  rfl

end Fold

section Spec

variable (payloads : MergePayloadOwners)

/-- The picks a merge must make: the source entries whose identity the target did not
change, ascending by identity, each with its right-hand row. -/
def specPicks (target source : List TrackedStateDiffEntry) : List TrackedStateMergePick :=
  ((sortByIdentity source).filter fun entry => entry.identity ∉ identities target).filterMap
    mergePick?

/-- The conflicts a merge must report: each identity both sides changed to divergent final
states, ascending by identity. -/
def specConflicts (target source : List TrackedStateDiffEntry) : List TrackedStateMergeConflict :=
  (sortByIdentity source).filterMap fun entry =>
    (target.find? (·.identity = entry.identity)).bind fun found =>
      if Divergent payloads found entry then some (mergeConflict found entry) else none

theorem mergeConflict?_eq (target source : TrackedStateDiffEntry) :
    mergeConflict? payloads (target, source) =
      if Divergent payloads target source then some (mergeConflict target source) else none := by
  unfold mergeConflict?
  by_cases hd : Divergent payloads target source
  · rw [if_pos ((Bool.not_eq_true' _).mpr ((sameFinalState_eq_false_iff payloads _ _).mpr hd)),
      if_pos hd]
  · rw [if_neg hd, if_neg]
    rw [Bool.not_eq_true', sameFinalState_eq_false_iff]
    exact hd

variable (rowPkText : RowPk → Except LixError String)

/-- `plan_sorted_merge` on both sides sorted by identity meets the specification, up to the
picks that may fail. -/
theorem planSortedMerge_sortByIdentity {target source : List TrackedStateDiffEntry}
    (ht : (identities target).Nodup) (hs : (identities source).Nodup) :
    planSortedMerge rowPkText (sortByIdentity target) (sortByIdentity source) payloads =
      (((sortByIdentity source).filter fun entry => entry.identity ∉ identities target).mapM
          (sourceChangePick rowPkText)).bind fun picks =>
        pure { picks := picks, conflicts := specConflicts payloads target source } := by
  have hperm := sortByKey_perm (·.identity) target
  have hmem : ∀ entry : TrackedStateDiffEntry,
      entry.identity ∈ identities (sortByKey (·.identity) target) ↔
        entry.identity ∈ identities target :=
    fun entry => (hperm.map _).mem_iff
  have hfind : ∀ entry : TrackedStateDiffEntry,
      (sortByKey (·.identity) target).find? (·.identity = entry.identity) =
        target.find? (·.identity = entry.identity) :=
    fun entry => find?_key_eq_of_perm _ hperm ((nodup_map_sortByKey_iff _ _ _).mpr ht) _
  unfold specConflicts sortByIdentity
  rw [planSortedMerge_of_sorted rowPkText payloads (strictlySorted_sortByKey _ ht)
    (strictlySorted_sortByKey _ hs)]
  simp only [hmem, hfind, List.filterMap_filterMap, Option.bind_map, Function.comp_def,
    mergeConflict?_eq]

/-- `plan_merge` succeeds exactly when neither side repeats an identity and every
source-only entry has a right-hand row, and its plan is then the specified one. -/
theorem planMerge_eq_ok_iff (target source : TrackedStateDiff) (fallback : TrackedStatePayloadBatch)
    (plan : TrackedStateMergePlan) :
    planMerge rowPkText target source fallback = .ok plan ↔
      (identities target.entries).Nodup ∧ (identities source.entries).Nodup ∧
        (∀ entry ∈ source.entries, entry.identity ∉ identities target.entries →
          entry.after.isSome) ∧
        plan = ⟨specPicks target.entries source.entries,
          specConflicts ⟨target.payloads, source.payloads, fallback⟩ target.entries
            source.entries⟩ := by
  have hsorted : ∀ entry, entry ∈ sortByIdentity source.entries ↔ entry ∈ source.entries :=
    fun entry => (sortByKey_perm _ _).mem_iff
  rw [planMerge_eq_bind]
  constructor
  · intro h
    obtain ⟨inputs, hnew, hplan⟩ := bind_eq_ok.mp h
    obtain ⟨ht, hs, hparts⟩ := sortedMergeInputs_new_spec rowPkText hnew
    rw [hparts, planSortedMerge_sortByIdentity _ rowPkText ht hs] at hplan
    obtain ⟨picks, hpicks, hpure⟩ := bind_eq_ok.mp hplan
    obtain ⟨hall, rfl⟩ := (mapM_sourceChangePick_eq_ok_iff rowPkText _ _).mp hpicks
    refine ⟨ht, hs, ?_, (pure_eq_ok.mp hpure).symm⟩
    intro entry hentry hfresh
    exact hall entry (List.mem_filter.mpr ⟨(hsorted entry).mpr hentry, by simpa using hfresh⟩)
  · rintro ⟨ht, hs, hall, rfl⟩
    obtain ⟨inputs, hnew⟩ := sortedMergeInputs_new_isOk rowPkText ht hs
    obtain ⟨-, -, hparts⟩ := sortedMergeInputs_new_spec rowPkText hnew
    have hpicks := (mapM_sourceChangePick_eq_ok_iff rowPkText
      ((sortByIdentity source.entries).filter fun entry =>
        entry.identity ∉ identities target.entries) _).mpr ⟨?_, rfl⟩
    · rw [hnew]
      simp only [Except.bind]
      rw [hparts, planSortedMerge_sortByIdentity _ rowPkText ht hs, hpicks]
      rfl
    · intro entry hentry
      obtain ⟨hmem, hfresh⟩ := List.mem_filter.mp hentry
      exact hall entry ((hsorted entry).mp hmem) (by simpa using hfresh)

end Spec

section Permutation

variable {target target' source source' : List TrackedStateDiffEntry}

theorem mem_identities_of_perm (h : target'.Perm target) (identity : TrackedStateDiffIdentity) :
    identity ∈ identities target' ↔ identity ∈ identities target :=
  (h.map _).mem_iff

theorem nodup_identities_of_perm (h : target'.Perm target) :
    (identities target').Nodup ↔ (identities target).Nodup :=
  (h.map _).nodup_iff

theorem specPicks_of_perm (ht : target'.Perm target) (hs : source'.Perm source)
    (hnd : (identities source').Nodup) :
    specPicks target' source' = specPicks target source := by
  unfold specPicks sortByIdentity
  rw [sortByKey_eq_of_perm _ hs hnd]
  simp only [mem_identities_of_perm ht]

theorem specConflicts_of_perm (payloads : MergePayloadOwners) (ht : target'.Perm target)
    (hs : source'.Perm source) (hndt : (identities target').Nodup)
    (hnds : (identities source').Nodup) :
    specConflicts payloads target' source' = specConflicts payloads target source := by
  unfold specConflicts sortByIdentity
  rw [sortByKey_eq_of_perm _ hs hnds]
  simp only [find?_key_eq_of_perm _ ht hndt]

variable (rowPkText : RowPk → Except LixError String)

/-- Reordering the entries of either diff keeps every successful plan. -/
theorem planMerge_ok_of_perm {target target' source source' : TrackedStateDiff}
    {fallback : TrackedStatePayloadBatch} {plan : TrackedStateMergePlan}
    (ht : target'.entries.Perm target.entries) (hs : source'.entries.Perm source.entries)
    (htp : target'.payloads = target.payloads) (hsp : source'.payloads = source.payloads)
    (h : planMerge rowPkText target source fallback = .ok plan) :
    planMerge rowPkText target' source' fallback = .ok plan := by
  obtain ⟨hndt, hnds, hall, rfl⟩ := (planMerge_eq_ok_iff rowPkText _ _ _ _).mp h
  have hndt' := (nodup_identities_of_perm ht).mpr hndt
  have hnds' := (nodup_identities_of_perm hs).mpr hnds
  refine (planMerge_eq_ok_iff rowPkText _ _ _ _).mpr ⟨hndt', hnds', ?_, ?_⟩
  · intro entry hentry hfresh
    exact hall entry (hs.mem_iff.mp hentry) ((mem_identities_of_perm ht _).not.mp hfresh)
  · rw [specPicks_of_perm ht hs hnds', specConflicts_of_perm _ ht hs hndt' hnds', htp, hsp]

end Permutation

/-- The merge plan is a function of the two sets of changes: `plan_merge` fails exactly on a
repeated identity or a source-only removal without a row, and otherwise returns the picks
and conflicts the specification lists, in ascending identity order; reordering the entries
of either diff keeps the outcome. -/
theorem planMerge_plan_spec (rowPkText : RowPk → Except LixError String)
    (target source : TrackedStateDiff) (fallback : TrackedStatePayloadBatch) :
    (∀ plan, planMerge rowPkText target source fallback = .ok plan ↔
      (identities target.entries).Nodup ∧ (identities source.entries).Nodup ∧
        (∀ entry ∈ source.entries, entry.identity ∉ identities target.entries →
          entry.after.isSome) ∧
        plan = ⟨specPicks target.entries source.entries,
          specConflicts ⟨target.payloads, source.payloads, fallback⟩ target.entries
            source.entries⟩) ∧
    ∀ target' source' : TrackedStateDiff, target'.entries.Perm target.entries →
      source'.entries.Perm source.entries → target'.payloads = target.payloads →
      source'.payloads = source.payloads →
      ∀ plan, planMerge rowPkText target' source' fallback = .ok plan ↔
        planMerge rowPkText target source fallback = .ok plan := by
  refine ⟨planMerge_eq_ok_iff rowPkText target source fallback, ?_⟩
  intro target' source' ht hs htp hsp plan
  exact ⟨planMerge_ok_of_perm rowPkText ht.symm hs.symm htp.symm hsp.symm,
    planMerge_ok_of_perm rowPkText ht hs htp hsp⟩

/-- A removal with no row on either side, under a one-column primary key. -/
def removalEntry (schemaKey : String) : TrackedStateDiffEntry :=
  ⟨⟨schemaKey, none, ⟨[.string "r"]⟩⟩, .removed, none, none⟩

/-- The unsorted target takes the fallback path and plans what the sorted one plans. -/
theorem planMerge_plan_spec_reordered :
    planMerge (fun _ => .ok "r") ⟨[removalEntry "x", removalEntry "a"], default⟩
      ⟨[removalEntry "x"], default⟩ default = .ok ⟨[], []⟩ :=
  ((planMerge_plan_spec (fun _ => .ok "r") ⟨[removalEntry "a", removalEntry "x"], default⟩
    ⟨[removalEntry "x"], default⟩ default).2 ⟨[removalEntry "x", removalEntry "a"], default⟩
      ⟨[removalEntry "x"], default⟩ (List.Perm.swap _ _ []) (List.Perm.refl _) rfl rfl
      ⟨[], []⟩).mpr (by decide +kernel)

/-- The error is not a function of the entries alone: the target scan passes an unsorted
target with a repeated identity, so the source's repeat is reported, while the same target
in another order fails on its own repeat first. -/
theorem planMerge_error_depends_on_order :
    planMerge (fun _ => .ok "r")
        ⟨[removalEntry "a", removalEntry "x", removalEntry "a"], default⟩
        ⟨[removalEntry "b", removalEntry "b"], default⟩ default =
      .error ⟨"LIX_ERROR_UNKNOWN",
        "tracked-state merge received duplicate diff entry for schema 'b' row 'r'"⟩ ∧
    planMerge (fun _ => .ok "r")
        ⟨[removalEntry "a", removalEntry "a", removalEntry "x"], default⟩
        ⟨[removalEntry "b", removalEntry "b"], default⟩ default =
      .error ⟨"LIX_ERROR_UNKNOWN",
        "tracked-state merge received duplicate diff entry for schema 'a' row 'r'"⟩ :=
  ⟨by decide, by decide⟩

end Lix.TrackedState
