import Lix.KeyCodec
import Lix.SortedWalk

/-! The rows a tracked-state diff carries between two commit roots (`tracked_state/diff.rs`)
and the payload batch that seals change payloads by change id. An identity is the
tracked-state key it wraps: the source's identity handle compares, orders and hashes by
the key alone. -/
namespace Lix.TrackedState
open KeyCodec SortedWalk

/-- `ChangeId`: a UUID, ordered by its sixteen bytes. -/
structure ChangeId where
  uuid : Vector UInt8 16
  deriving DecidableEq, Repr

instance : Ord ChangeId := ⟨fun a b => compare a.uuid b.uuid⟩

structure CommitId where
  uuid : Vector UInt8 16
  deriving DecidableEq, Repr

structure LixTimestamp where
  value : UInt64
  deriving DecidableEq, Repr

/-- A `Jsonb` value by its canonical binary form, which `Jsonb` equality compares. -/
structure Jsonb where
  binary : List UInt8
  deriving DecidableEq, Repr

def hexDigit (n : ℕ) : Char := if n < 10 then Char.ofNat (48 + n) else Char.ofNat (87 + n)

def hexByte (byte : UInt8) : String := String.ofList [hexDigit (byte.toNat / 16), hexDigit (byte.toNat % 16)]

/-- `uuid_text`: the hyphenated lower-case form `Display` prints for a UUID. -/
def uuidText (uuid : Vector UInt8 16) : String :=
  let hex := uuid.toList.map hexByte
  "-".intercalate [String.join (hex.take 4), String.join ((hex.drop 4).take 2),
    String.join ((hex.drop 6).take 2), String.join ((hex.drop 8).take 2), String.join (hex.drop 10)]

def ChangeId.toString (id : ChangeId) : String := uuidText id.uuid

def CommitId.toString (id : CommitId) : String := uuidText id.uuid

abbrev TrackedStateDiffIdentity := TrackedStateKey

inductive TrackedStateDiffKind where
  | added
  | modified
  | removed
  deriving DecidableEq, Repr

structure TrackedStateDiffRow where
  identity : TrackedStateDiffIdentity
  deleted : Bool
  createdAt : LixTimestamp
  updatedAt : LixTimestamp
  changeId : ChangeId
  commitId : CommitId
  deriving DecidableEq, Repr

/-- One changed identity: its raw rows in the left and right roots, tombstones included. -/
structure TrackedStateDiffEntry where
  identity : TrackedStateDiffIdentity
  kind : TrackedStateDiffKind
  before : Option TrackedStateDiffRow
  after : Option TrackedStateDiffRow
  deriving DecidableEq, Repr

/-- One row of the payload columns, as `TrackedStatePayloadRef` reads it. -/
structure TrackedStatePayload where
  changeId : ChangeId
  snapshot : Option (List UInt8)
  metadata : Option Jsonb
  deriving DecidableEq, Repr

/-- `TrackedStatePayloadBatch`: payload rows with distinct change ids, the invariant the
`id_ordinals` map of `from_payloads` establishes. -/
structure TrackedStatePayloadBatch where
  rows : List TrackedStatePayload
  nodup : (rows.map (·.changeId)).Nodup

namespace TrackedStatePayloadBatch

instance : Inhabited TrackedStatePayloadBatch := ⟨⟨[], List.nodup_nil⟩⟩

/-- `get`: the row the change id's ordinal points at. -/
def get (batch : TrackedStatePayloadBatch) (changeId : ChangeId) : Option TrackedStatePayload :=
  batch.rows.find? (·.changeId == changeId)

def contains (batch : TrackedStatePayloadBatch) (changeId : ChangeId) : Bool :=
  (batch.get changeId).isSome

/-- The first change id the `id_ordinals.insert` loop finds already present. -/
def firstRepeatedChangeId : List ChangeId → List ChangeId → Option ChangeId
  | _, [] => none
  | seen, changeId :: rest =>
    if changeId ∈ seen then some changeId else firstRepeatedChangeId (changeId :: seen) rest

theorem nodup_of_firstRepeatedChangeId (seen ids : List ChangeId)
    (h : firstRepeatedChangeId seen ids = none) : ids.Nodup ∧ ∀ id ∈ ids, id ∉ seen := by
  induction ids generalizing seen with
  | nil => simp
  | cons id rest ih =>
    rw [firstRepeatedChangeId] at h
    split at h
    · cases h
    · rename_i hid
      obtain ⟨hnd, hfresh⟩ := ih (id :: seen) h
      refine ⟨List.nodup_cons.mpr ⟨fun hmem => hfresh id hmem (List.mem_cons_self), hnd⟩, ?_⟩
      intro x hx
      rcases List.mem_cons.mp hx with rfl | hx
      · exact hid
      · exact fun hs => hfresh x hx (List.mem_cons_of_mem _ hs)

/-- `from_payloads`: sort by change id, then seal, rejecting a repeated change id. -/
def fromPayloads (payloads : List TrackedStatePayload) : Except LixError TrackedStatePayloadBatch :=
  if payloads.isEmpty then .ok default
  else if payloads.length > 4294967295 then
    .error ⟨"LIX_INTERNAL_ERROR", "tracked-state payload batch exceeds the ordinal range"⟩
  else
    let sorted := sortByKey (·.changeId) payloads
    match h : firstRepeatedChangeId [] (sorted.map (·.changeId)) with
    | some changeId =>
      .error ⟨"LIX_INTERNAL_ERROR",
        "tracked-state payload batch contains duplicate change id '" ++ changeId.toString ++ "'"⟩
    | none => .ok ⟨sorted, (nodup_of_firstRepeatedChangeId [] _ h).1⟩

end TrackedStatePayloadBatch

/-- `TrackedStateDiff`: the changed rows between two roots and the payloads they loaded. -/
structure TrackedStateDiff where
  entries : List TrackedStateDiffEntry
  payloads : TrackedStatePayloadBatch

end Lix.TrackedState
