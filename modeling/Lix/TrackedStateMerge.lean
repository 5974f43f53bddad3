import Lix.TrackedStateDiff

/-! The three-way tracked-state merge planner of `tracked_state/merge.rs`. Two diffs from
one merge base are walked by identity: source-only changes become picks, target-only
changes are kept, and identities both sides changed are compared by final state.
Unsorted inputs are sorted once per side and checked for duplicates first.

`RowPk::as_json_array_text` renders through `serde_json`, outside the repository; it is
the parameter `rowPkText`, read only to build error messages. -/
namespace Lix.TrackedState
open KeyCodec SortedWalk

structure TrackedStateMergePick where
  identity : TrackedStateDiffIdentity
  changeId : ChangeId
  selectedRow : TrackedStateDiffRow
  deriving DecidableEq, Repr

structure TrackedStateMergeConflict where
  identity : TrackedStateDiffIdentity
  target : TrackedStateDiffEntry
  source : TrackedStateDiffEntry
  deriving DecidableEq, Repr

structure TrackedStateMergePlan where
  picks : List TrackedStateMergePick
  conflicts : List TrackedStateMergeConflict
  deriving DecidableEq, Repr

instance : Inhabited TrackedStateMergePlan := ⟨⟨[], []⟩⟩

/-- The payload owners one merge reads: target first, then source, then fallback. -/
structure MergePayloadOwners where
  target : TrackedStatePayloadBatch
  source : TrackedStatePayloadBatch
  fallback : TrackedStatePayloadBatch

def MergePayloadOwners.get (payloads : MergePayloadOwners) (changeId : ChangeId) :
    Option TrackedStatePayload :=
  (payloads.target.get changeId).or ((payloads.source.get changeId).or
    (payloads.fallback.get changeId))

inductive SortedMergeInputs where
  | borrowed (target source : List TrackedStateDiffEntry)
  | fallback (entries : List TrackedStateDiffEntry) (targetLen : ℕ)

def sortByIdentity (entries : List TrackedStateDiffEntry) : List TrackedStateDiffEntry :=
  sortByKey (·.identity) entries

def rowIsLive (row : TrackedStateDiffRow) : Bool := !row.deleted

/-- `tracked_row_payload_eq`: one change id, or payloads present with equal snapshot and
metadata; a payload missing from every owner compares unequal. -/
def trackedRowPayloadEq (left right : TrackedStateDiffRow) (payloads : MergePayloadOwners) :
    Bool :=
  if left.changeId = right.changeId then true
  else
    match payloads.get left.changeId, payloads.get right.changeId with
    | some left, some right => left.snapshot == right.snapshot && left.metadata == right.metadata
    | _, _ => false

/-- `same_final_state`: the arms in source order, guards included. -/
def sameFinalState (target source : TrackedStateDiffEntry) (payloads : MergePayloadOwners) :
    Bool :=
  match target.after, source.after with
  | none, none => true
  | some target, some source =>
    if !rowIsLive target && !rowIsLive source then true
    else if rowIsLive target && rowIsLive source then trackedRowPayloadEq target source payloads
    else false
  | _, _ => false

def cloneEntryWithIdentity (entry : TrackedStateDiffEntry) (identity : TrackedStateDiffIdentity) :
    TrackedStateDiffEntry :=
  { entry with
    identity := identity
    before := entry.before.map fun row => { row with identity := identity }
    after := entry.after.map fun row => { row with identity := identity } }

/-- The conflict pushed for an identity both sides changed differently; both cloned sides
are rebound to the target's identity. -/
def mergeConflict (target source : TrackedStateDiffEntry) : TrackedStateMergeConflict :=
  ⟨target.identity, cloneEntryWithIdentity target target.identity,
    cloneEntryWithIdentity source target.identity⟩

section Planner

variable (rowPkText : RowPk → Except LixError String)

def duplicateDiffEntryError (entry : TrackedStateDiffEntry) : LixError :=
  ⟨"LIX_ERROR_UNKNOWN", "tracked-state merge received duplicate diff entry for schema '" ++
    entry.identity.schemaKey ++ "' row '" ++
    (match rowPkText entry.identity.rowPk with
      | .ok text => text
      | .error _ => "<invalid row pk>") ++ "'"⟩

/-- `entries_are_strictly_sorted`: over every adjacent pair, fail on an equal identity,
and report whether no pair was out of order. -/
def entriesAreStrictlySorted : List TrackedStateDiffEntry → Except LixError Bool
  | first :: second :: rest =>
    match compare first.identity second.identity with
    | .lt => entriesAreStrictlySorted (second :: rest)
    | .eq => .error (duplicateDiffEntryError rowPkText second)
    | .gt => (entriesAreStrictlySorted (second :: rest)).map fun _ => false
  | _ => .ok true

def rejectAdjacentDuplicates : List TrackedStateDiffEntry → Except LixError Unit
  | first :: second :: rest =>
    if first.identity = second.identity then .error (duplicateDiffEntryError rowPkText second)
    else rejectAdjacentDuplicates (second :: rest)
  | _ => .ok ()

/-- `SortedMergeInputs::new`. The two partitions are sorted with `sort_unstable_by`; any
sort gives one order once identities are distinct, and with a repeated identity only
which of two equal entries is named changes, not the error. -/
def SortedMergeInputs.new (target source : TrackedStateDiff) :
    Except LixError SortedMergeInputs := do
  let targetIsSorted ← entriesAreStrictlySorted rowPkText target.entries
  let sourceIsSorted ← entriesAreStrictlySorted rowPkText source.entries
  if targetIsSorted && sourceIsSorted then
    return .borrowed target.entries source.entries
  let targetLen := target.entries.length
  let entries := target.entries ++ source.entries
  let entries := sortByIdentity (entries.take targetLen) ++ sortByIdentity (entries.drop targetLen)
  rejectAdjacentDuplicates rowPkText (entries.take targetLen)
  rejectAdjacentDuplicates rowPkText (entries.drop targetLen)
  return .fallback entries targetLen

def sourceChangePick (entry : TrackedStateDiffEntry) : Except LixError TrackedStateMergePick :=
  match entry.after with
  | none => do
    let text ← rowPkText entry.identity.rowPk
    .error ⟨"LIX_ERROR_UNKNOWN", "tracked-state merge cannot pick source removal for schema '" ++
      entry.identity.schemaKey ++ "' row '" ++ text ++ "' without a tombstone row"⟩
  | some row =>
    let row := { row with identity := entry.identity }
    .ok ⟨entry.identity, row.changeId, row⟩

def pushPick (plan : TrackedStateMergePlan) (source : TrackedStateDiffEntry) :
    Except LixError TrackedStateMergePlan := do
  let pick ← sourceChangePick rowPkText source
  pure { plan with picks := plan.picks ++ [pick] }

/-- The `while` loop of `plan_sorted_merge`; it returns the plan and the sources it did
not reach. -/
def planSortedMergeLoop (payloads : MergePayloadOwners) :
    List TrackedStateDiffEntry → List TrackedStateDiffEntry → TrackedStateMergePlan →
      Except LixError (TrackedStateMergePlan × List TrackedStateDiffEntry)
  | target :: targets, source :: sources, plan =>
    match compare target.identity source.identity with
    | .lt => planSortedMergeLoop payloads targets (source :: sources) plan
    | .gt => do
      let plan ← pushPick rowPkText plan source
      planSortedMergeLoop payloads (target :: targets) sources plan
    | .eq =>
      if !sameFinalState target source payloads then
        planSortedMergeLoop payloads targets sources
          { plan with conflicts := plan.conflicts ++ [mergeConflict target source] }
      else planSortedMergeLoop payloads targets sources plan
  | _, sources, plan => .ok (plan, sources)
termination_by targets sources => targets.length + sources.length

/-- `plan_sorted_merge`: the walk, then a pick for every source entry left over. -/
def planSortedMerge (target source : List TrackedStateDiffEntry) (payloads : MergePayloadOwners) :
    Except LixError TrackedStateMergePlan := do
  let (plan, rest) ← planSortedMergeLoop rowPkText payloads target source default
  rest.foldlM (pushPick rowPkText) plan

/-- `plan_merge`. -/
def planMerge (target source : TrackedStateDiff) (fallback : TrackedStatePayloadBatch) :
    Except LixError TrackedStateMergePlan := do
  let payloads : MergePayloadOwners := ⟨target.payloads, source.payloads, fallback⟩
  match ← SortedMergeInputs.new rowPkText target source with
  | .borrowed target source => planSortedMerge rowPkText target source payloads
  | .fallback entries targetLen =>
    planSortedMerge rowPkText (entries.take targetLen) (entries.drop targetLen) payloads

end Planner

/-- `count_sorted_merge_outputs`: the same walk counting picks and conflicts. -/
def countSortedMergeOutputs (payloads : MergePayloadOwners) :
    List TrackedStateDiffEntry → List TrackedStateDiffEntry → ℕ → ℕ → ℕ × ℕ
  | target :: targets, source :: sources, pickCount, conflictCount =>
    match compare target.identity source.identity with
    | .lt => countSortedMergeOutputs payloads targets (source :: sources) pickCount conflictCount
    | .gt => countSortedMergeOutputs payloads (target :: targets) sources (pickCount + 1) conflictCount
    | .eq =>
      countSortedMergeOutputs payloads targets sources pickCount
        (conflictCount + if !sameFinalState target source payloads then 1 else 0)
  | _, sources, pickCount, conflictCount => (pickCount + sources.length, conflictCount)
termination_by targets sources => targets.length + sources.length

/-- `sorted_merge_payload_fallback_ids`: both change ids of every live/live pair whose
change ids differ, the pairs that reach the payload comparison. -/
def sortedMergePayloadFallbackIds :
    List TrackedStateDiffEntry → List TrackedStateDiffEntry → List ChangeId
  | target :: targets, source :: sources =>
    match compare target.identity source.identity with
    | .lt => sortedMergePayloadFallbackIds targets (source :: sources)
    | .gt => sortedMergePayloadFallbackIds (target :: targets) sources
    | .eq =>
      (match target.after, source.after with
        | some target, some source =>
          if !target.deleted && !source.deleted && target.changeId ≠ source.changeId then
            [target.changeId, source.changeId]
          else []
        | _, _ => []) ++ sortedMergePayloadFallbackIds targets sources
  | _, _ => []
termination_by targets sources => targets.length + sources.length

/-- `merge_payload_fallback_ids`: those ids that neither diff's payloads hold. -/
def mergePayloadFallbackIds (rowPkText : RowPk → Except LixError String)
    (target source : TrackedStateDiff) : Except LixError (List ChangeId) := do
  let ids := match ← SortedMergeInputs.new rowPkText target source with
    | .borrowed target source => sortedMergePayloadFallbackIds target source
    | .fallback entries targetLen =>
      sortedMergePayloadFallbackIds (entries.take targetLen) (entries.drop targetLen)
  pure (ids.filter fun changeId =>
    !target.payloads.contains changeId && !source.payloads.contains changeId)

end Lix.TrackedState
