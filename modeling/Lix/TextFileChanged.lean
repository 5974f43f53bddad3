import Lix.TextDocument
import Lix.ListWindow

/-! `Document::file_changed` of the text plugin (`plugins/text/src/core.rs`): apply the host's
splices, split the new bytes into lines, match the new lines to the old ones (the unchanged
prefix and suffix, then exact byte matches in the changed middle, then the rest in order),
give the matched lines their old ids and new lines fresh ones, keep the order keys of a longest
run of matches that stays in old order and fill the gaps between them, and report the row
changes against the old document. Also the host's `ByteArena::apply`, which applies the byte
edits `rows_changed` returns.

Indexes are `ℕ` and vectors are lists written with `set`. A matched index is always an index of
an old line; the out-of-range reads and `expect`s the source would panic on are errors with the
panic's message, as for `evenly_between`. The `usize` and `u64` overflow checks of cursors,
ordinals and splice ends are left out: in `ℕ` a splice end past the bytes fails the bounds
check instead. -/
namespace Lix.Text
open ListWindow SortedWalk

section Splices

def FileEdit.toSplice (edit : FileEdit) : Splice UInt8 := ⟨edit.offset, edit.deleteLen, edit.insert⟩

/-- `apply_splices` from `cursor`: each splice must start at or past the end of the previous one
and end within the bytes. -/
def applySplicesFrom (before : List UInt8) : ℕ → List FileEdit → Except String (List UInt8)
  | cursor, [] => pure (before.drop cursor)
  | cursor, splice :: splices => do
    let stop := splice.offset + splice.deleteLen
    if splice.offset < cursor ∨ before.length < stop then
      throw "file splices must be sorted, non-overlapping, and in bounds"
    let after ← applySplicesFrom before stop splices
    pure (window before cursor splice.offset ++ splice.insert ++ after)

def applySplices (before : List UInt8) (splices : List FileEdit) : Except String (List UInt8) :=
  applySplicesFrom before 0 splices

end Splices

section Matching

/-- How many leading old lines have the bytes of the chunk at their position: `take_while`
over `zip`, comparing bytes. -/
def matchingLineCount : List Line → List (List UInt8) → ℕ
  | old :: olds, new :: news => if old.bytes = new then matchingLineCount olds news + 1 else 0
  | _, _ => 0

/-- `old_for_new` (the old line each chunk takes, by index) and `old_used`. -/
structure LineMatching where
  oldForNew : List (Option ℕ)
  oldUsed : List Bool
  deriving DecidableEq, Repr

/-- The chunk at `newIndex` takes the old line at `oldIndex`. -/
def LineMatching.assign (matching : LineMatching) (newIndex oldIndex : ℕ) : LineMatching :=
  ⟨matching.oldForNew.set newIndex (some oldIndex), matching.oldUsed.set oldIndex true⟩

/-- The old line a chunk of the changed middle keeps: the first unused old line of the middle
with the chunk's bytes. The source searches the old middle lines sorted by
`(line_hash, index)` within the chunk's hash; lines with equal bytes have equal hashes, so the
first unused one with equal bytes there is the first in index order. -/
def exactMatch (lines : List Line) (middleOld : List ℕ) (oldUsed : List Bool)
    (bytes : List UInt8) : Option ℕ :=
  middleOld.find? fun oldIndex =>
    !oldUsed.getD oldIndex true && decide ((lines[oldIndex]?).map Line.bytes = some bytes)

/-- One chunk of the changed middle, with its index. -/
def matchExact (lines : List Line) (middleOld : List ℕ) (matching : LineMatching)
    (chunk : List UInt8 × ℕ) : LineMatching :=
  match exactMatch lines middleOld matching.oldUsed chunk.1 with
  | some oldIndex => matching.assign chunk.2 oldIndex
  | none => matching

end Matching

section Anchors

/-- `partition_point` on a list partitioned by `pred`: the length of the prefix where `pred`
holds. `tails` below stays sorted by old index, so it is partitioned. -/
def partitionPoint {α : Type*} (xs : List α) (pred : α → Bool) : ℕ := (xs.takeWhile pred).length

/-- The state of the longest-increasing-subsequence scan: the position ending the best run of
each length, and each position's predecessor on its run. -/
structure PatienceState where
  tails : List ℕ
  predecessors : List (Option ℕ)
  deriving DecidableEq, Repr

/-- One position of the scan; unmatched positions are skipped. -/
def patienceStep (oldForNew : List (Option ℕ)) (state : PatienceState) :
    Option ℕ × ℕ → PatienceState
  | (none, _) => state
  | (some oldIndex, position) =>
    let insertion := partitionPoint state.tails fun tail =>
      (oldForNew.getD tail none).any (· < oldIndex)
    let predecessors := if insertion ≠ 0 then
        state.predecessors.set position state.tails[insertion - 1]?
      else state.predecessors
    let tails := if insertion = state.tails.length then state.tails ++ [position]
      else state.tails.set insertion position
    ⟨tails, predecessors⟩

end Anchors

section OrderKeys

/-- `for (position, key) in (cursor..stop).zip(allocated)`: write each key at its position. -/
def writeKeys (orderKeys : List (Option OrderKey)) (positions : List ℕ) (allocated : List OrderKey) :
    List (Option OrderKey) :=
  (positions.zip allocated).foldl (fun keys pair => keys.set pair.1 (some pair.2)) orderKeys

/-- The state of the fill loop over the anchors. -/
structure KeyFill where
  orderKeys : List (Option OrderKey)
  previous : Option OrderKey
  cursor : ℕ

/-- The gap before one anchor gets keys between the previous anchor's key and this one's. -/
def fillAnchor (fill : KeyFill) (anchor : ℕ) : Except String KeyFill := do
  let some next := fill.orderKeys.getD anchor none | throw "an order anchor key was assigned"
  let allocated ← OrderKey.evenlyBetween fill.previous (some next) (anchor - fill.cursor)
  pure ⟨writeKeys fill.orderKeys (List.range' fill.cursor (anchor - fill.cursor)) allocated,
    some next, anchor + 1⟩

end OrderKeys

section Reconcile

variable (base64 : Base64Engine)

end Reconcile

section Arena

def ByteEdit.toSplice (edit : ByteEdit) : Splice UInt8 := ⟨edit.offset, edit.deleteLen, edit.insert⟩

/-- `validate_edits` of the host's byte arena, with the end and the offset of the edit before:
each edit ends within the base, starts at or past the end of the previous one, and not at the
previous one's offset. -/
def validateEdits (baseLen : ℕ) : Option (ℕ × ℕ) → List ByteEdit → Bool
  | _, [] => true
  | previous, edit :: rest =>
    (edit.offset + edit.deleteLen ≤ baseLen &&
      previous.all fun previous => previous.1 ≤ edit.offset && previous.2 ≠ edit.offset) &&
      validateEdits baseLen (some (edit.offset + edit.deleteLen, edit.offset)) rest

/-- `ByteArena::apply` on the bytes the arena holds: after validation, the bytes up to each edit
are copied, its insert is written, and copying resumes past what it deletes. `none` is the
arena's `InvalidEdits` error. -/
def ByteArena.apply (base : List UInt8) (edits : List ByteEdit) : Option (List UInt8) :=
  if validateEdits base.length none edits then some (spliceFrom base 0 (edits.map ByteEdit.toSplice))
  else none

end Arena

end Lix.Text
