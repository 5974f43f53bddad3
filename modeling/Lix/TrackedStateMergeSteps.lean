import Lix.TrackedStateMerge
import Lix.KeyCodecOrder
import Lix.ExceptSpec

/-! What each step of the merge planner does, one lemma per function: the pick a source
entry yields, when two final states diverge, and what the input checks accept. The
divergence rule is stated in its own terms, apart from the guards of `same_final_state`. -/
namespace Lix.TrackedState
open KeyCodec SortedWalk ExceptSpec

def identities (entries : List TrackedStateDiffEntry) : List TrackedStateDiffIdentity :=
  entries.map (·.identity)

/-- The pick a source entry with a right-hand row yields: that row, owned by the entry's
identity, under its change id. -/
def mergePick (entry : TrackedStateDiffEntry) (row : TrackedStateDiffRow) : TrackedStateMergePick :=
  ⟨entry.identity, row.changeId, { row with identity := entry.identity }⟩

def mergePick? (entry : TrackedStateDiffEntry) : Option TrackedStateMergePick :=
  entry.after.map (mergePick entry)

/-- Two change payloads do not show the same content: one is missing, or snapshot or
metadata differ. -/
def PayloadsDiffer (payloads : MergePayloadOwners) (left right : ChangeId) : Prop :=
  match payloads.get left, payloads.get right with
  | some left, some right => left.snapshot ≠ right.snapshot ∨ left.metadata ≠ right.metadata
  | _, _ => True

/-- Final states a merge must report as a conflict: exactly one side absent, exactly one
side a tombstone, or two live rows of different changes whose payloads differ. -/
def Divergent (payloads : MergePayloadOwners) (target source : TrackedStateDiffEntry) : Prop :=
  match target.after, source.after with
  | none, none => False
  | some target, some source =>
    target.deleted ≠ source.deleted ∨
      (target.deleted = false ∧ source.deleted = false ∧ target.changeId ≠ source.changeId ∧
        PayloadsDiffer payloads target.changeId source.changeId)
  | _, _ => True

instance (payloads : MergePayloadOwners) (left right : ChangeId) :
    Decidable (PayloadsDiffer payloads left right) := by
  unfold PayloadsDiffer
  split <;> infer_instance

instance (payloads : MergePayloadOwners) (target source : TrackedStateDiffEntry) :
    Decidable (Divergent payloads target source) := by
  unfold Divergent
  split <;> infer_instance

section FinalState

variable (payloads : MergePayloadOwners)

theorem trackedRowPayloadEq_eq_false_iff (left right : TrackedStateDiffRow) :
    trackedRowPayloadEq left right payloads = false ↔
      left.changeId ≠ right.changeId ∧ PayloadsDiffer payloads left.changeId right.changeId := by
  unfold trackedRowPayloadEq PayloadsDiffer
  by_cases hid : left.changeId = right.changeId
  · simp [hid]
  · rw [if_neg hid]
    split <;> simp_all [imp_iff_not_or]

/-- `same_final_state` fails exactly on divergent final states. -/
theorem sameFinalState_eq_false_iff (target source : TrackedStateDiffEntry) :
    sameFinalState target source payloads = false ↔ Divergent payloads target source := by
  unfold sameFinalState Divergent
  cases target.after with
  | none => cases source.after <;> simp
  | some t =>
    cases source.after with
    | none => simp
    | some s =>
      cases ht : t.deleted <;> cases hs : s.deleted <;>
        simp [rowIsLive, ht, hs, trackedRowPayloadEq_eq_false_iff]

end FinalState

section Picks

variable (rowPkText : RowPk → Except LixError String)

theorem sourceChangePick_eq_ok_iff (entry : TrackedStateDiffEntry) (pick : TrackedStateMergePick) :
    sourceChangePick rowPkText entry = .ok pick ↔ mergePick? entry = some pick := by
  unfold sourceChangePick mergePick?
  cases entry.after with
  | none =>
    simp only [Option.map_none, reduceCtorEq, iff_false]
    cases rowPkText entry.identity.rowPk <;> simp [bind, Except.bind]
  | some row => simp [mergePick]

/-- The picks for a run of source entries succeed exactly when each has a right-hand row,
and are then those rows in order. -/
theorem mapM_sourceChangePick_eq_ok_iff (entries : List TrackedStateDiffEntry)
    (picks : List TrackedStateMergePick) :
    entries.mapM (sourceChangePick rowPkText) = .ok picks ↔
      (∀ entry ∈ entries, entry.after.isSome) ∧ picks = entries.filterMap mergePick? := by
  rw [mapM_eq_ok_iff_filterMap (sourceChangePick_eq_ok_iff rowPkText)]
  simp [mergePick?]

end Picks

section InputChecks

variable (rowPkText : RowPk → Except LixError String)

theorem strictlySorted_of_entriesAreStrictlySorted {entries : List TrackedStateDiffEntry}
    (h : entriesAreStrictlySorted rowPkText entries = .ok true) :
    StrictlySorted (·.identity) entries := by
  fun_induction entriesAreStrictlySorted rowPkText entries with
  | case1 first second rest hlt ih => exact (ih h).cons_of_lt_head hlt
  | case2 first second rest heq => cases h
  | case3 first second rest hgt ih =>
    obtain ⟨b, -, hb⟩ := map_eq_ok.mp h
    cases hb
  | case4 entries hshort =>
    rcases entries with _ | ⟨entry, _ | ⟨second, rest⟩⟩
    · exact List.Pairwise.nil
    · exact List.pairwise_singleton _ entry
    · exact absurd rfl (hshort entry second rest)

/-- With distinct identities the sortedness scan never fails. -/
theorem entriesAreStrictlySorted_isOk {entries : List TrackedStateDiffEntry}
    (h : (identities entries).Nodup) :
    ∃ sorted, entriesAreStrictlySorted rowPkText entries = .ok sorted := by
  fun_induction entriesAreStrictlySorted rowPkText entries with
  | case1 first second rest hlt ih => exact ih (List.nodup_cons.mp h).2
  | case2 first second rest heq =>
    have hid : first.identity = second.identity := Std.LawfulEqOrd.eq_of_compare heq
    simp [identities, hid] at h
  | case3 first second rest hgt ih =>
    obtain ⟨b, hb⟩ := ih (List.nodup_cons.mp h).2
    exact ⟨false, by rw [hb]; rfl⟩
  | case4 entries hshort => exact ⟨true, rfl⟩

/-- On a list sorted by identity, rejecting adjacent duplicates rejects all duplicates. -/
theorem rejectAdjacentDuplicates_eq_ok_iff {entries : List TrackedStateDiffEntry}
    (hs : entries.Pairwise (fun a b => (compare a.identity b.identity).isLE)) :
    rejectAdjacentDuplicates rowPkText entries = .ok () ↔ (identities entries).Nodup := by
  fun_induction rejectAdjacentDuplicates rowPkText entries with
  | case1 first second rest heq =>
    simp [identities, heq]
  | case2 first second rest hne ih =>
    rw [ih hs.of_cons]
    have hlt : compare first.identity second.identity = .lt := by
      have hle := List.rel_of_pairwise_cons hs (List.mem_cons_self)
      cases hc : compare first.identity second.identity with
      | lt => rfl
      | eq => exact absurd (Std.LawfulEqOrd.eq_of_compare hc) hne
      | gt =>
        rw [hc] at hle
        cases hle
    have hfresh : first.identity ∉ identities (second :: rest) := by
      simp only [identities, List.mem_map, not_exists, not_and]
      intro z hz heq
      rcases List.mem_cons.mp hz with rfl | hz
      · exact hne heq.symm
      · have hle : (compare second.identity z.identity).isLE :=
          List.rel_of_pairwise_cons hs.of_cons hz
        have hlt' := Std.TransCmp.lt_of_lt_of_isLE hlt hle
        exact ne_of_compare_lt hlt' heq.symm
    simp only [identities, List.map_cons] at hfresh ⊢
    rw [List.nodup_cons]
    simp [hfresh]
  | case3 entries hshort =>
    rcases entries with _ | ⟨entry, _ | ⟨second, rest⟩⟩
    · simp [identities]
    · simp [identities]
    · exact absurd rfl (hshort entry second rest)

/-- The two sides `plan_merge` hands to `plan_sorted_merge`. -/
def SortedMergeInputs.partitions : SortedMergeInputs →
    List TrackedStateDiffEntry × List TrackedStateDiffEntry
  | .borrowed target source => (target, source)
  | .fallback entries targetLen => (entries.take targetLen, entries.drop targetLen)

theorem planMerge_eq_bind (target source : TrackedStateDiff) (fallback : TrackedStatePayloadBatch) :
    planMerge rowPkText target source fallback =
      (SortedMergeInputs.new rowPkText target source).bind fun inputs =>
        planSortedMerge rowPkText inputs.partitions.1 inputs.partitions.2
          ⟨target.payloads, source.payloads, fallback⟩ := by
  unfold planMerge
  cases SortedMergeInputs.new rowPkText target source with
  | error e => rfl
  | ok inputs => cases inputs <;> rfl

theorem fallback_partitions (target source : List TrackedStateDiffEntry) :
    ((sortByIdentity ((target ++ source).take target.length) ++
        sortByIdentity ((target ++ source).drop target.length)).take target.length,
      (sortByIdentity ((target ++ source).take target.length) ++
        sortByIdentity ((target ++ source).drop target.length)).drop target.length) =
      (sortByIdentity target, sortByIdentity source) := by
  have hlen : (sortByIdentity target).length = target.length := length_sortByKey _ _
  simp only [List.take_left', List.drop_left', hlen]

/-- `SortedMergeInputs::new` accepts only sides with distinct identities, and hands on
each side sorted by identity, whichever path it takes. -/
theorem sortedMergeInputs_new_spec {target source : TrackedStateDiff} {inputs : SortedMergeInputs}
    (h : SortedMergeInputs.new rowPkText target source = .ok inputs) :
    (identities target.entries).Nodup ∧ (identities source.entries).Nodup ∧
      inputs.partitions = (sortByIdentity target.entries, sortByIdentity source.entries) := by
  unfold SortedMergeInputs.new at h
  obtain ⟨targetIsSorted, htarget, hrest⟩ := bind_eq_ok.mp h
  obtain ⟨sourceIsSorted, hsource, hbody⟩ := bind_eq_ok.mp hrest
  split at hbody
  next hsorted =>
    obtain ⟨rfl, rfl⟩ : targetIsSorted = true ∧ sourceIsSorted = true := by simpa using hsorted
    have hst := strictlySorted_of_entriesAreStrictlySorted rowPkText htarget
    have hss := strictlySorted_of_entriesAreStrictlySorted rowPkText hsource
    obtain rfl := (pure_eq_ok.mp hbody).symm
    refine ⟨hst.nodup, hss.nodup, ?_⟩
    simp only [SortedMergeInputs.partitions, sortByIdentity, sortByKey_of_strictlySorted _ hst,
      sortByKey_of_strictlySorted _ hss]
  next =>
    have hparts := fallback_partitions target.entries source.entries
    simp only [Prod.mk.injEq] at hparts
    obtain ⟨u, hrt, hbody⟩ := bind_eq_ok.mp hbody
    obtain ⟨v, hrs, hbody⟩ := bind_eq_ok.mp hbody
    obtain rfl := (pure_eq_ok.mp hbody).symm
    cases u
    cases v
    rw [hparts.1] at hrt
    rw [hparts.2] at hrs
    have hnt := (rejectAdjacentDuplicates_eq_ok_iff rowPkText (pairwise_isLE_sortByKey _ _)).mp hrt
    have hns := (rejectAdjacentDuplicates_eq_ok_iff rowPkText (pairwise_isLE_sortByKey _ _)).mp hrs
    refine ⟨(nodup_map_sortByKey_iff _ _ _).mp hnt, (nodup_map_sortByKey_iff _ _ _).mp hns, ?_⟩
    simp only [SortedMergeInputs.partitions, hparts.1, hparts.2]

theorem sortedMergeInputs_new_isOk {target source : TrackedStateDiff}
    (ht : (identities target.entries).Nodup) (hs : (identities source.entries).Nodup) :
    ∃ inputs, SortedMergeInputs.new rowPkText target source = .ok inputs := by
  obtain ⟨targetIsSorted, htarget⟩ := entriesAreStrictlySorted_isOk rowPkText ht
  obtain ⟨sourceIsSorted, hsource⟩ := entriesAreStrictlySorted_isOk rowPkText hs
  have hrt : rejectAdjacentDuplicates rowPkText (sortByIdentity target.entries) = .ok () :=
    (rejectAdjacentDuplicates_eq_ok_iff rowPkText (pairwise_isLE_sortByKey _ _)).mpr
      ((nodup_map_sortByKey_iff _ _ _).mpr ht)
  have hrs : rejectAdjacentDuplicates rowPkText (sortByIdentity source.entries) = .ok () :=
    (rejectAdjacentDuplicates_eq_ok_iff rowPkText (pairwise_isLE_sortByKey _ _)).mpr
      ((nodup_map_sortByKey_iff _ _ _).mpr hs)
  have hparts := fallback_partitions target.entries source.entries
  simp only [Prod.mk.injEq] at hparts
  unfold SortedMergeInputs.new
  simp only [htarget, hsource, bind, Except.bind]
  split
  · exact ⟨_, rfl⟩
  · simp only [hparts.1, hparts.2, hrt, hrs]
    exact ⟨_, rfl⟩

end InputChecks

end Lix.TrackedState
