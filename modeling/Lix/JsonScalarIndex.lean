import Lix.JsonBlob
import Lix.SortedMap
import Lix.LexCompare

/-! The scalar index of the JSON plugin's host state and the shift overlay over it
(`plugins/json/src/lib.rs`). A full parse stores each scalar's start and length; a later edit
inside one scalar leaves them as they are and records how much that scalar grew or shrank, as a
signed delta under its ordinal. A scalar's effective start is its stored start moved by the
deltas of the scalars before it, its effective length its stored length moved by its own delta.
The overlay is a vector of `(ordinal, delta)` sorted by ordinal and updated by binary search; it
is stored as 12-byte little-endian records and read back into a `BTreeMap`, adding up repeated
ordinals and dropping zero totals.

`u32` ordinals and `u64` positions are `ℕ` and `i64` deltas `ℤ`, with the range checks of the
source kept as errors; the `usize` and `u64` conversions of in-memory lengths cannot fail and
are left out. Reading an index entry from the host's state pages is the parameter `readEntry`,
and the document's reading of the edited scalar (`Document::scalar_change_from_arena` on its
metadata and bytes) the parameter `scalarChange`.

A serialize step that writes existing scalars (`sparse_semantic_changes`) finds each written
scalar by its row key, has the document replace the scalar's whole span, and merges the deltas
into the overlay the same way. Reading a scalar's metadata is the parameter `readMetadata`,
reading file bytes `readRange`, and the document's rendering of the written row `render`. -/
namespace Lix.Json
open SortedMap ListWindow LexCompare

/-- The errors of the plugin interface that these paths raise. -/
inductive SdkError
  | invalidInput (message : String)
  | limitExceeded (message : String)
  deriving DecidableEq, Repr

def minI64 : ℤ := -2 ^ 63

def maxI64 : ℤ := 2 ^ 63 - 1

/-- `i64::checked_add`. -/
def checkedAddI64 (total delta : ℤ) : Option ℤ :=
  if minI64 ≤ total + delta ∧ total + delta ≤ maxI64 then some (total + delta) else none

section Positions

/-- `apply_scalar_shift`: a `u64` position moved by a signed delta. -/
def applyScalarShift (base : ℕ) (delta : ℤ) : Except SdkError ℕ :=
  if 0 ≤ delta then
    if base + delta.toNat > maxU64 then .error (.invalidInput "JSON scalar position overflowed")
    else .ok (base + delta.toNat)
  else if base < delta.natAbs then .error (.invalidInput "JSON scalar position overflowed")
  else .ok (base - delta.natAbs)

/-- The `try_fold` of `checked_add` over deltas, from `0`. -/
def sumDeltas (deltas : List ℤ) : Option ℤ := deltas.foldlM checkedAddI64 0

/-- A stored position moved by the deltas of the ordinals `selected` picks. -/
def shiftedPosition (selected : ℕ → Prop) [DecidablePred selected] (base : ℕ)
    (shifts : List (ℕ × ℤ)) : Except SdkError ℕ :=
  match sumDeltas ((shifts.filter fun shift => selected shift.1).map (·.2)) with
  | none => .error (.invalidInput "JSON scalar shift overflowed")
  | some total => applyScalarShift base total

def effectiveScalarStart (base ordinal : ℕ) (shifts : List (ℕ × ℤ)) : Except SdkError ℕ :=
  shiftedPosition (· < ordinal) base shifts

def effectiveScalarLength (base ordinal : ℕ) (shifts : List (ℕ × ℤ)) : Except SdkError ℕ :=
  shiftedPosition (· = ordinal) base shifts

end Positions

section Overlay

/-- `to_le_bytes` of a `width`-byte unsigned integer. -/
def leBytes (width n : ℕ) : List UInt8 := (beBytes width n).reverse

/-- `from_le_bytes` of an unsigned integer. -/
def fromLeBytes (bytes : List UInt8) : ℕ := fromBeBytes bytes.reverse

/-- `i64::to_le_bytes`, in two's complement. -/
def i64LeBytes (value : ℤ) : List UInt8 := leBytes 8 (value % 2 ^ 64).toNat

/-- `i64::from_le_bytes`. -/
def i64FromLeBytes (bytes : List UInt8) : ℤ :=
  if fromLeBytes bytes < 2 ^ 63 then fromLeBytes bytes else (fromLeBytes bytes : ℤ) - 2 ^ 64

/-- The 12-byte records of a stored overlay, as `chunks_exact(12)` cuts them. -/
def shiftRecords (bytes : List UInt8) : List (List UInt8) :=
  (List.range (bytes.length / 12)).map fun index => window bytes (12 * index) (12 * index + 12)

/-- One record read into the overlay map: its delta adds to its ordinal's total, and a total
of zero takes the ordinal out. -/
def addShiftRecord (shifts : List (ℕ × ℤ)) (record : List UInt8) :
    Except SdkError (List (ℕ × ℤ)) :=
  let ordinal := fromLeBytes (window record 0 4)
  let delta := i64FromLeBytes (window record 4 12)
  match checkedAddI64 ((get? shifts ordinal).getD 0) delta with
  | none => .error (.invalidInput "JSON scalar shift overflowed")
  | some total =>
    if total = 0 then .ok (erase ordinal shifts) else .ok (SortedMap.insert ordinal total shifts)

def decodeScalarShifts (bytes : List UInt8) : Except SdkError (List (ℕ × ℤ)) :=
  if bytes.length % 12 ≠ 0 then .error (.invalidInput "truncated JSON scalar shift overlay")
  else (shiftRecords bytes).foldlM addShiftRecord []

def encodeScalarShifts (shifts : List (ℕ × ℤ)) : List UInt8 :=
  shifts.flatMap fun shift => leBytes 4 shift.1 ++ i64LeBytes shift.2

/-- The overlay update of `sparse_scalar_change` and `sparse_semantic_changes`: a non-zero
delta adds to the ordinal's entry, found by binary search, or is inserted where the search
ends; an entry whose total comes to zero is removed. The two callers report an overflowing
total differently, as `overflow`. -/
def mergeShift (overflow : SdkError) (shifts : List (ℕ × ℤ)) (ordinal : ℕ) (delta : ℤ) :
    Except SdkError (List (ℕ × ℤ)) :=
  if delta = 0 then .ok shifts
  else
    match search shifts ordinal with
    | .ok index =>
      match shifts[index]? with
      -- never taken: the search returns the index of the ordinal's entry
      | none => .ok shifts
      | some (changed, current) =>
        match checkedAddI64 current delta with
        | none => .error overflow
        | some total =>
          if total = 0 then .ok (shifts.eraseIdx index) else .ok (shifts.set index (changed, total))
    | .error index => .ok (shifts.insertIdx index (ordinal, delta))

end Overlay

section SparseEdit

/-- An entry of the scalar index: a scalar's stored span and where its metadata lies. -/
structure ScalarEntry where
  start : ℕ
  length : ℕ
  page : ℕ
  blobOffset : ℕ
  blobLen : ℕ
  deriving DecidableEq, Repr

variable (readEntry : ℕ → Except SdkError ScalarEntry) (shifts : List (ℕ × ℤ)) (offset : ℕ)

/-- The `while low < high` loop of `sparse_scalar_change`: the count of leading scalars whose
effective start is at most `offset`, by halving `[low, high)`. -/
def scalarSearchLoop (low high : ℕ) : Except SdkError ℕ :=
  if h : low < high then do
    let middle := low + (high - low) / 2
    let entry ← readEntry middle
    let start ← effectiveScalarStart entry.start middle shifts
    if start ≤ offset then scalarSearchLoop (middle + 1) high else scalarSearchLoop low middle
  else .ok low
termination_by high - low
decreasing_by all_goals omega

/-- The scalar an edit of `[offset, editEnd)` lies in, as `sparse_scalar_change` finds it: the
last scalar whose effective start is at most `offset`, with its entry and effective span, if
that span holds the edit. -/
def locateScalar (count editEnd : ℕ) : Except SdkError (Option (ℕ × ScalarEntry × ℕ × ℕ)) := do
  let low ← scalarSearchLoop readEntry shifts offset 0 count
  if low = 0 then return none
  let ordinal := low - 1
  let entry ← readEntry ordinal
  let start ← effectiveScalarStart entry.start ordinal shifts
  let length ← effectiveScalarLength entry.length ordinal shifts
  if start + length > maxU64 then throw (.invalidInput "JSON scalar range overflowed")
  if offset < start ∨ editEnd > start + length then return none
  return some (ordinal, entry, start, length)

/-- How much a scalar grows when `deleteLen` of its bytes are replaced by `insertLen` bytes, as
an `i64`. -/
def scalarDelta (insertLen deleteLen : ℕ) : Except SdkError ℤ :=
  if insertLen ≥ deleteLen then
    if ((insertLen - deleteLen : ℕ) : ℤ) > maxI64 then
      .error (.limitExceeded "JSON scalar growth exceeds i64")
    else .ok (insertLen - deleteLen : ℕ)
  else if ((deleteLen - insertLen : ℕ) : ℤ) > maxI64 then
    .error (.limitExceeded "JSON scalar shrink exceeds i64")
  else .ok (-((deleteLen - insertLen : ℕ) : ℤ))

/-- `sparse_scalar_change` past the index manifest checks: read the overlay, find the scalar
the single edit lies in, let the document make the row change of the edited scalar, and add the
edit's delta to the overlay, which is returned encoded. -/
def sparseScalarChange {ρ : Type} (scalarChange : ℕ → ScalarEntry → ℕ → ℕ → Except SdkError (Option ρ))
    (count : ℕ) (overlay : List UInt8) (deleteLen insertLen : ℕ) :
    Except SdkError (Option (ρ × List UInt8)) := do
  let shifts ← decodeScalarShifts overlay
  if offset + deleteLen > maxU64 then throw (.invalidInput "JSON edit range overflowed")
  let some (ordinal, entry, start, length) ←
      locateScalar readEntry shifts offset count (offset + deleteLen) | return none
  let some change ← scalarChange ordinal entry start length | return none
  let delta ← scalarDelta insertLen deleteLen
  let shifts ← mergeShift (.invalidInput "JSON scalar shift overflowed") shifts ordinal delta
  return some (change, encodeScalarShifts shifts)

end SparseEdit

section SemanticEdit

/-- `ArenaJsonRelation`: where a scalar hangs in the document. -/
inductive ArenaJsonRelation
  | snapshot
  | object
  | array
  deriving DecidableEq, Repr

def rootSchemaKey : String := "json_root"

def objectMemberSchemaKey : String := "json_object_member"

def arrayItemSchemaKey : String := "json_array_item"

/-- The schema key of a scalar's row, by where the scalar hangs. -/
def ArenaJsonRelation.schemaKey : ArenaJsonRelation → String
  | .snapshot => rootSchemaKey
  | .object => objectMemberSchemaKey
  | .array => arrayItemSchemaKey

/-- `ArenaJsonScalar`, a scalar's stored metadata: its span, where it hangs and its row's key;
the parent, order key and layout, which only the document reads, are `details`. -/
structure ArenaJsonScalar (κ μ : Type) where
  start : ℕ
  length : ℕ
  relation : ArenaJsonRelation
  rowPk : κ
  details : μ

/-- `RowChange`: the row written, with its schema key and key; the rest only the document
reads. -/
structure RowChange (κ ρ : Type) where
  schemaKey : String
  rowPk : κ
  row : ρ

/-- `ByteEdit`: replace `deleteLen` bytes at `offset` by `insert`. -/
structure ByteEdit where
  offset : ℕ
  deleteLen : ℕ
  insert : List UInt8
  deriving DecidableEq, Repr

variable {κ μ ρ : Type} [DecidableEq κ]

/-- The end of `Document::scalar_edit_from_arena`: the scalar's new bytes, as `render` gives
them after the document's checks of the written row, replace the scalar's whole span, unless
they are the bytes it holds. -/
def scalarEditFromArena (render : ArenaJsonScalar κ μ → List UInt8 → RowChange κ ρ → Except String (List UInt8))
    (metadata : ArenaJsonScalar κ μ) (current : List UInt8) (change : RowChange κ ρ) :
    Except String (Option ByteEdit) := do
  let scalar ← render metadata current change
  if current = scalar then return none
  return some ⟨metadata.start, metadata.length, scalar⟩

variable (readEntry : ℕ → Except SdkError ScalarEntry)
  (readMetadata : ScalarEntry → Except SdkError (ArenaJsonScalar κ μ))
  (readRange : ℕ → ℕ → Except SdkError (List UInt8))
  (render : ArenaJsonScalar κ μ → List UInt8 → RowChange κ ρ → Except String (List UInt8))
  (rowPkText : κ → String)

/-- The scan of `sparse_semantic_changes` for the scalar a change writes: the first ordinal
whose metadata has the change's schema key and row key. -/
def findSemanticScalar (change : RowChange κ ρ) :
    List ℕ → Except SdkError (Option (ℕ × ScalarEntry × ArenaJsonScalar κ μ))
  | [] => .ok none
  | ordinal :: rest => do
    let entry ← readEntry ordinal
    let metadata ← readMetadata entry
    if metadata.relation.schemaKey = change.schemaKey ∧ metadata.rowPk = change.rowPk then
      return some (ordinal, entry, metadata)
    findSemanticScalar change rest

/-- One change of `sparse_semantic_changes`: the scalar it writes, read at its span under the
overlay `base` the batch started from, and the edit the document makes there, if any. -/
def semanticScalarEdit (count : ℕ) (base : List (ℕ × ℤ)) (change : RowChange κ ρ) :
    Except SdkError (Option (ℕ × ByteEdit)) := do
  let some (ordinal, entry, metadata) ← findSemanticScalar readEntry readMetadata change (List.range count)
    | throw (.invalidInput ("JSON scalar index has no semantic row " ++ change.schemaKey ++ "." ++
        rowPkText change.rowPk ++ "; JSON semantic writes support existing scalar values only"))
  let start ← effectiveScalarStart entry.start ordinal base
  let length ← effectiveScalarLength entry.length ordinal base
  if start > maxU32 then throw (.invalidInput "JSON scalar start exceeds u32")
  if length > maxU32 then throw (.invalidInput "JSON scalar length exceeds u32")
  let current ← readRange start length
  match scalarEditFromArena render { metadata with start, length } current change with
  | .error error =>
    throw (.invalidInput ("JSON indexed semantic row " ++ change.schemaKey ++ "." ++
      rowPkText change.rowPk ++ ": " ++ error))
  | .ok none => return none
  | .ok (some edit) => return some (ordinal, edit)

/-- The body of the loop of `sparse_semantic_changes`: the change's edit is kept and its delta
merged into the overlay. -/
def semanticStep (count : ℕ) (base : List (ℕ × ℤ)) (state : List (ℕ × ℤ) × List ByteEdit)
    (change : RowChange κ ρ) : Except SdkError (List (ℕ × ℤ) × List ByteEdit) := do
  let some (ordinal, edit) ←
      semanticScalarEdit readEntry readMetadata readRange render rowPkText count base change
    | return state
  if (edit.insert.length : ℤ) > maxI64 then throw (.limitExceeded "JSON scalar insert exceeds i64")
  if (edit.deleteLen : ℤ) > maxI64 then throw (.limitExceeded "JSON scalar deletion exceeds i64")
  let shifts ← mergeShift (.limitExceeded "JSON scalar shift exceeds i64") state.1 ordinal
    ((edit.insert.length : ℤ) - edit.deleteLen)
  return (shifts, state.2 ++ [edit])

/-- `sparse_semantic_changes` past the index header checks: every change must write a scalar
of the index; the edits come back sorted by offset, with the overlay that adds their deltas. -/
def sparseSemanticChanges (count : ℕ) (overlay : List UInt8) (changes : List (RowChange κ ρ)) :
    Except SdkError (Option (List ByteEdit × List (ℕ × ℤ))) := do
  let shifts ← decodeScalarShifts overlay
  let (shifts, edits) ←
    changes.foldlM (semanticStep readEntry readMetadata readRange render rowPkText count shifts) (shifts, [])
  return some (edits.mergeSort fun a b => a.offset ≤ b.offset, shifts)

end SemanticEdit

end Lix.Json
