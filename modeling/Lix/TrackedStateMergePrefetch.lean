import Lix.TrackedStateMergeSpec

/-! `merge_payload_fallback_ids` prefetches enough. The planner reads payloads only for an
identity both diffs changed to live rows of different changes, and the prefetch walk visits
the same matched pairs, sending their change ids unless a diff's batch already holds them.
So when the diffs' batches agree with one store of payloads, a fallback batch holding the
store's payload of every prefetched id plans exactly what a batch holding every change's
payload plans. -/
namespace Lix.TrackedState
open KeyCodec SortedWalk ExceptSpec

/-- The change ids a matched pair sends to the payload comparison: both, when the two rows
are live and of different changes. -/
def fallbackPairIds (pair : TrackedStateDiffEntry × TrackedStateDiffEntry) : List ChangeId :=
  match pair.1.after, pair.2.after with
  | some target, some source =>
    if !target.deleted && !source.deleted && target.changeId ≠ source.changeId then
      [target.changeId, source.changeId]
    else []
  | _, _ => []

section Walk

/-- The prefetch walk sends the ids of the matched pairs of the merge join. -/
theorem sortedMergePayloadFallbackIds_eq (target source : List TrackedStateDiffEntry) :
    sortedMergePayloadFallbackIds target source =
      ((walk (·.identity) (·.identity) target source).filterMap Step.getBoth?).flatMap
        fallbackPairIds := by
  fun_induction sortedMergePayloadFallbackIds target source with
  | case1 t ts s ss hlt ih =>
    rw [walk_lt _ _ _ _ hlt, List.filterMap_cons, Step.getBoth?_left, ih]
  | case2 t ts s ss hgt ih =>
    rw [walk_gt _ _ _ _ hgt, List.filterMap_cons, Step.getBoth?_right, ih]
  | case3 t ts s ss heq ih =>
    rw [walk_eq _ _ _ _ heq, List.filterMap_cons, Step.getBoth?_both, List.flatMap_cons, ih]
    rfl
  | case4 target source hshort =>
    rcases target with _ | ⟨t, ts⟩
    · simp [walk, List.filterMap_map, Function.comp_def]
    · rcases source with _ | ⟨s, ss⟩
      · rw [boths_walk_nil_right, List.flatMap_nil]
      · exact absurd rfl (hshort t ts s ss rfl)

theorem mergePayloadFallbackIds_eq_bind (rowPkText : RowPk → Except LixError String)
    (target source : TrackedStateDiff) :
    mergePayloadFallbackIds rowPkText target source =
      (SortedMergeInputs.new rowPkText target source).bind fun inputs =>
        pure ((sortedMergePayloadFallbackIds inputs.partitions.1 inputs.partitions.2).filter
          fun changeId => !target.payloads.contains changeId && !source.payloads.contains changeId) := by
  unfold mergePayloadFallbackIds
  cases SortedMergeInputs.new rowPkText target source with
  | error e => rfl
  | ok inputs => cases inputs <;> rfl

/-- On the sides sorted by identity, the walk sends the ids of each source entry paired with
the target entry of its identity. -/
theorem mem_sortedMergePayloadFallbackIds {target source : List TrackedStateDiffEntry}
    (ht : (identities target).Nodup) (hs : (identities source).Nodup) (id : ChangeId) :
    id ∈ sortedMergePayloadFallbackIds (sortByIdentity target) (sortByIdentity source) ↔
      ∃ entry ∈ source, ∃ found, target.find? (·.identity = entry.identity) = some found ∧
        id ∈ fallbackPairIds (found, entry) := by
  have hfind : ∀ entry : TrackedStateDiffEntry,
      (sortByKey (·.identity) target).find? (·.identity = entry.identity) =
        target.find? (·.identity = entry.identity) :=
    fun entry => find?_key_eq_of_perm _ (sortByKey_perm _ target)
      ((nodup_map_sortByKey_iff _ _ _).mpr ht) _
  rw [sortedMergePayloadFallbackIds_eq, sortByIdentity, sortByIdentity,
    boths_walk _ _ (strictlySorted_sortByKey _ ht) (strictlySorted_sortByKey _ hs)]
  simp only [List.mem_flatMap, List.mem_filterMap, Option.map_eq_some_iff, hfind]
  constructor
  · rintro ⟨_, ⟨entry, hentry, found, hfound, rfl⟩, hid⟩
    exact ⟨entry, (sortByKey_perm _ source).subset hentry, found, hfound, hid⟩
  · rintro ⟨entry, hentry, found, hfound, hid⟩
    exact ⟨_, ⟨entry, (sortByKey_perm _ source).symm.subset hentry, found, hfound, rfl⟩, hid⟩

end Walk

section Pairs

/-- An id a pair sends is the change id of one of its live rows, the two rows of different
changes. -/
theorem mem_fallbackPairIds {target source : TrackedStateDiffEntry} {id : ChangeId}
    (h : id ∈ fallbackPairIds (target, source)) :
    ∃ tr sr, target.after = some tr ∧ source.after = some sr ∧ tr.deleted = false ∧
      sr.deleted = false ∧ tr.changeId ≠ sr.changeId ∧ (id = tr.changeId ∨ id = sr.changeId) := by
  unfold fallbackPairIds at h
  rcases ht : target.after with _ | tr <;> rcases hs : source.after with _ | sr <;>
    simp only [ht, hs, List.not_mem_nil] at h
  split_ifs at h with hlive
  · simp only [Bool.and_eq_true, Bool.not_eq_true', decide_eq_true_eq] at hlive
    obtain ⟨⟨htd, hsd⟩, hne⟩ := hlive
    exact ⟨tr, sr, rfl, rfl, htd, hsd, hne, by simpa using h⟩
  · cases h

/-- Two payload owners that answer alike for the ids a pair sends agree on whether its final
states diverge: only live rows of different changes read the payloads. -/
theorem divergent_congr {payloads payloads' : MergePayloadOwners}
    {target source : TrackedStateDiffEntry}
    (h : ∀ id ∈ fallbackPairIds (target, source), payloads.get id = payloads'.get id) :
    Divergent payloads target source ↔ Divergent payloads' target source := by
  unfold Divergent
  rcases ht : target.after with _ | tr <;> rcases hs : source.after with _ | sr
  · rfl
  · rfl
  · rfl
  · by_cases hlive : tr.deleted = false ∧ sr.deleted = false ∧ tr.changeId ≠ sr.changeId
    · have hids : fallbackPairIds (target, source) = [tr.changeId, sr.changeId] := by
        simp [fallbackPairIds, ht, hs, hlive.1, hlive.2.1, hlive.2.2]
      rw [hids] at h
      simp only [PayloadsDiffer, h tr.changeId (by simp), h sr.changeId (by simp)]
    · constructor <;> rintro (hne | ⟨htd, hsd, hid, -⟩)
      · exact Or.inl hne
      · exact absurd ⟨htd, hsd, hid⟩ hlive
      · exact Or.inl hne
      · exact absurd ⟨htd, hsd, hid⟩ hlive

end Pairs

section Prefetch

variable (rowPkText : RowPk → Except LixError String) {target source : TrackedStateDiff}
  (store : ChangeId → TrackedStatePayload)

/-- The ids `merge_payload_fallback_ids` returns: those a matched pair of the two diffs sends,
which neither diff's batch holds. -/
theorem mem_mergePayloadFallbackIds {ids : List ChangeId}
    (h : mergePayloadFallbackIds rowPkText target source = .ok ids) (id : ChangeId) :
    id ∈ ids ↔ target.payloads.contains id = false ∧ source.payloads.contains id = false ∧
      ∃ entry ∈ source.entries, ∃ found,
        target.entries.find? (·.identity = entry.identity) = some found ∧
        id ∈ fallbackPairIds (found, entry) := by
  rw [mergePayloadFallbackIds_eq_bind] at h
  obtain ⟨inputs, hnew, hids⟩ := bind_eq_ok.mp h
  obtain ⟨ht, hs, hparts⟩ := sortedMergeInputs_new_spec rowPkText hnew
  rw [← pure_eq_ok.mp hids, hparts, List.mem_filter, mem_sortedMergePayloadFallbackIds ht hs]
  simp only [Bool.and_eq_true, Bool.not_eq_true']
  tauto

/-- Owners whose diff batches hold only the store's payloads answer with the store's payload
for an id some batch holds. -/
theorem get_eq_store {fallback : TrackedStatePayloadBatch}
    (htarget : ∀ id p, target.payloads.get id = some p → p = store id)
    (hsource : ∀ id p, source.payloads.get id = some p → p = store id) {id : ChangeId}
    (hheld : target.payloads.contains id ∨ source.payloads.contains id ∨
      fallback.get id = some (store id)) :
    MergePayloadOwners.get ⟨target.payloads, source.payloads, fallback⟩ id = some (store id) := by
  unfold MergePayloadOwners.get
  rcases hT : target.payloads.get id with _ | p
  · rcases hS : source.payloads.get id with _ | p
    · -- neither diff holds it: the fallback does
      simp only [TrackedStatePayloadBatch.contains, hT, hS, Option.isSome_none,
        Bool.false_eq_true, false_or] at hheld
      simpa using hheld
    · simp [hsource id p hS]
  · simp [htarget id p hT]

/-- For an id a matched pair of the diffs sends, the prefetched fallback and the full batch
make the owners answer alike: with the store's payload. -/
theorem get_fallback_eq_get_full
    (htarget : ∀ id p, target.payloads.get id = some p → p = store id)
    (hsource : ∀ id p, source.payloads.get id = some p → p = store id)
    {fallback full : TrackedStatePayloadBatch} {ids : List ChangeId}
    (hids : mergePayloadFallbackIds rowPkText target source = .ok ids)
    (hfallback : ∀ id ∈ ids, fallback.get id = some (store id))
    (hfull : ∀ entry ∈ target.entries ++ source.entries, ∀ row, entry.after = some row →
      full.get row.changeId = some (store row.changeId))
    {entry found : TrackedStateDiffEntry} (hentry : entry ∈ source.entries)
    (hfound : target.entries.find? (·.identity = entry.identity) = some found)
    {id : ChangeId} (hid : id ∈ fallbackPairIds (found, entry)) :
    MergePayloadOwners.get ⟨target.payloads, source.payloads, fallback⟩ id =
      MergePayloadOwners.get ⟨target.payloads, source.payloads, full⟩ id := by
  obtain ⟨tr, sr, htr, hsr, -, -, -, hrow⟩ := mem_fallbackPairIds hid
  rw [get_eq_store store htarget hsource, get_eq_store store htarget hsource]
  · -- the full batch holds every change of the diffs
    refine Or.inr (Or.inr ?_)
    rcases hrow with rfl | rfl
    · exact hfull found (List.mem_append_left _ (List.mem_of_find?_eq_some hfound)) tr htr
    · exact hfull entry (List.mem_append_right _ hentry) sr hsr
  · -- an id neither diff holds was prefetched
    by_cases hheld : target.payloads.contains id ∨ source.payloads.contains id
    · rcases hheld with hheld | hheld
      · exact Or.inl hheld
      · exact Or.inr (Or.inl hheld)
    · simp only [not_or, Bool.not_eq_true] at hheld
      exact Or.inr (Or.inr (hfallback id ((mem_mergePayloadFallbackIds rowPkText hids id).mpr
        ⟨hheld.1, hheld.2, entry, hentry, found, hfound, hid⟩)))

/-- Prefetch sufficiency: over diff batches that agree with one store of payloads, a fallback
batch holding the store's payload for each id `merge_payload_fallback_ids` returns plans what a
batch holding the payload of every change of the diffs plans; and the ids returned are the
change ids of live rows of different changes under one identity in both diffs, held by
neither diff's batch. -/
theorem planMerge_fallback_sufficient
    (htarget : ∀ id p, target.payloads.get id = some p → p = store id)
    (hsource : ∀ id p, source.payloads.get id = some p → p = store id)
    (fallback full : TrackedStatePayloadBatch)
    (hfallback : ∀ ids, mergePayloadFallbackIds rowPkText target source = .ok ids →
      ∀ id ∈ ids, fallback.get id = some (store id))
    (hfull : ∀ entry ∈ target.entries ++ source.entries, ∀ row, entry.after = some row →
      full.get row.changeId = some (store row.changeId)) :
    planMerge rowPkText target source fallback = planMerge rowPkText target source full ∧
    ∀ ids, mergePayloadFallbackIds rowPkText target source = .ok ids → ∀ id ∈ ids,
      target.payloads.contains id = false ∧ source.payloads.contains id = false ∧
      ∃ t ∈ target.entries, ∃ s ∈ source.entries, t.identity = s.identity ∧
        ∃ tr sr, t.after = some tr ∧ s.after = some sr ∧ tr.deleted = false ∧
          sr.deleted = false ∧ tr.changeId ≠ sr.changeId ∧ (id = tr.changeId ∨ id = sr.changeId) := by
  refine ⟨?_, fun ids hids id hid => ?_⟩
  · rw [planMerge_eq_bind, planMerge_eq_bind]
    rcases hnew : SortedMergeInputs.new rowPkText target source with e | inputs
    · rfl
    obtain ⟨ht, hs, hparts⟩ := sortedMergeInputs_new_spec rowPkText hnew
    obtain ⟨ids, hids⟩ : ∃ ids, mergePayloadFallbackIds rowPkText target source = .ok ids :=
      ⟨_, by rw [mergePayloadFallbackIds_eq_bind, hnew]; rfl⟩
    simp only [Except.bind]
    rw [hparts, planSortedMerge_sortByIdentity _ rowPkText ht hs,
      planSortedMerge_sortByIdentity _ rowPkText ht hs]
    congr 2
    funext picks
    congr 2
    unfold specConflicts
    refine List.filterMap_congr fun entry hentry => Option.bind_congr fun found hfound => ?_
    have hsame : ∀ id ∈ fallbackPairIds (found, entry),
        MergePayloadOwners.get ⟨target.payloads, source.payloads, fallback⟩ id =
          MergePayloadOwners.get ⟨target.payloads, source.payloads, full⟩ id :=
      fun _ hid => get_fallback_eq_get_full rowPkText store htarget hsource hids
        (hfallback ids hids) hfull ((sortByKey_perm _ _).subset hentry) hfound hid
    simp only [divergent_congr hsame]
  · obtain ⟨hnotT, hnotS, entry, hentry, found, hfound, hpair⟩ :=
      (mem_mergePayloadFallbackIds rowPkText hids id).mp hid
    have hident : found.identity = entry.identity := by simpa using List.find?_some hfound
    exact ⟨hnotT, hnotS, found, List.mem_of_find?_eq_some hfound, entry, hentry, hident,
      mem_fallbackPairIds hpair⟩

def sampleChangeId (n : UInt8) : ChangeId := ⟨Vector.replicate 16 n⟩

/-- A live row of the change `sampleChangeId n` under the identity of `removalEntry "x"`. -/
def liveEntry (n : UInt8) : TrackedStateDiffEntry :=
  ⟨(removalEntry "x").identity, .modified, none,
    some ⟨(removalEntry "x").identity, false, ⟨0⟩, ⟨0⟩, sampleChangeId n, ⟨Vector.replicate 16 0⟩⟩⟩

/-- A store in which every change wrote the same snapshot. -/
def sampleStore (changeId : ChangeId) : TrackedStatePayload := ⟨changeId, some [1], none⟩

/-- Two diffs that change one identity to live rows of two changes, with no payloads kept; the
prefetched batch holds the two changes, the full one a third change too. -/
theorem planMerge_fallback_sufficient_sample :
    mergePayloadFallbackIds (fun _ => .ok "r") ⟨[liveEntry 1], default⟩ ⟨[liveEntry 2], default⟩ =
      .ok [sampleChangeId 1, sampleChangeId 2] ∧
    planMerge (fun _ => .ok "r") ⟨[liveEntry 1], default⟩ ⟨[liveEntry 2], default⟩
        ⟨[sampleStore (sampleChangeId 1), sampleStore (sampleChangeId 2)], by decide⟩ =
      planMerge (fun _ => .ok "r") ⟨[liveEntry 1], default⟩ ⟨[liveEntry 2], default⟩
        ⟨[sampleStore (sampleChangeId 3), sampleStore (sampleChangeId 1),
          sampleStore (sampleChangeId 2)], by decide⟩ := by
  have hids : mergePayloadFallbackIds (fun _ => .ok "r") ⟨[liveEntry 1], default⟩
      ⟨[liveEntry 2], default⟩ = .ok [sampleChangeId 1, sampleChangeId 2] := by
    decide +kernel
  refine ⟨hids, (planMerge_fallback_sufficient (fun _ => .ok "r") sampleStore
    (fun _ _ h => by cases h) (fun _ _ h => by cases h) _ _ ?_ ?_).1⟩
  · intro ids h
    rw [hids] at h
    cases h
    decide
  · intro entry hentry row hrow
    simp only [List.mem_append, List.mem_singleton] at hentry
    rcases hentry with rfl | rfl <;> cases hrow <;> decide

end Prefetch

end Lix.TrackedState
