import Lix.KeyCodec
import Lix.FrontCoding
import Lix.ListWindow

/-! The node half of `tracked_state/codec.rs`: the stored tracked-state value with its
self-delimiting state tail, and the wire formats of the tree's nodes. An internal node lists
its children's key ranges front-coded against each other, with their hashes and subtree
counts. A leaf lists its entries with front-coded keys, in one of two layouts: v4 keeps each
value's change id and moves repeated commit ids and state tails into dictionaries; the direct
layout, for a run of rows written by one commit with consecutive change ids, keeps the commit
id once and rebuilds every change id from the first.

Readers take the bytes and an offset and return what they read with the offset after it. The
decoders rebuild keys and values into one arena of ranges; the model keeps each key's and
value's bytes, which is what the ranges select. `usizeBits` is the width of `usize`: 64 on the
native targets, 32 on `wasm32`. Buffer reservations are not modelled. -/
namespace Lix.NodeCodec
open LexCompare ExceptSpec FrontCoding ListWindow KeyCodec
open Varint hiding readVarint

def nodeKindLeafV4 : UInt8 := 5
def nodeKindInternalV4 : UInt8 := 6
def nodeKindDirectLeafV1 : UInt8 := 7
def trackedStateHashBytes : ℕ := 32

def valueChangeIdEnd : ℕ := 16
def valueCommitIdStart : ℕ := 16
def valueCommitIdEnd : ℕ := 32
def valueStateTailStart : ℕ := 32
def valueMinBytes : ℕ := valueStateTailStart + 1
def valueMaxBytes : ℕ := valueStateTailStart + 1 + 8 + 8
def valueTailDeleted : UInt8 := 0x80
def valueTailCodeMask : UInt8 := 0x7f
def valueTimestampMaxWidth : UInt8 := 8
def valueTimestampWidthCount : UInt8 := valueTimestampMaxWidth + 1
def valueTailDistinctMin : UInt8 := valueTimestampWidthCount
def valueTailDistinctMax : UInt8 :=
  valueTailDistinctMin + valueTimestampWidthCount * valueTimestampWidthCount - 1

/-- `LixError::new("LIX_ERROR_UNKNOWN", message)`. -/
def codecError (message : String) : LixError := ⟨"LIX_ERROR_UNKNOWN", message⟩

/-- `read_varint` with its two messages. -/
def readVarint (bytes : List UInt8) (offset : ℕ) (context : String) : Except LixError (ℕ × ℕ) :=
  Varint.readVarint (codecError (context ++ " varint is truncated"))
    (codecError (context ++ " varint overflows u64")) bytes offset

/-- `u64::to_le_bytes`. -/
def u64ToLeBytes (value : ℕ) : List UInt8 := (beBytes 8 value).reverse

/-- `u64::from_le_bytes`. -/
def u64FromLeBytes (bytes : List UInt8) : ℕ := fromBeBytes bytes.reverse

/-! ## The state tail -/

/-- `minimal_timestamp_width`: the bytes of the value's bit length
(`u64::BITS - leading_zeros`), rounded up. -/
def minimalTimestampWidth (value : ℕ) : ℕ :=
  if value = 0 then 0 else (Nat.size value + 7) / 8

/-- The code `write_value_tail` puts in the tag: the created width alone for equal timestamps,
else both widths past the equal codes. -/
def valueTailCode (createdAt updatedAt : ℕ) : UInt8 :=
  let createdWidth := minimalTimestampWidth createdAt
  let updatedWidth := minimalTimestampWidth updatedAt
  if createdAt = updatedAt then createdWidth.toUInt8
  else valueTailDistinctMin + createdWidth.toUInt8 * valueTimestampWidthCount + updatedWidth.toUInt8

/-- `write_value_tail`: a tag with the deletion bit and the code, then the timestamps' minimal
little-endian bytes, the second only when they differ. -/
def writeValueTail (deleted : Bool) (createdAt updatedAt : ℕ) : List UInt8 :=
  let createdWidth := minimalTimestampWidth createdAt
  let updatedWidth := minimalTimestampWidth updatedAt
  (valueTailCode createdAt updatedAt ||| (if deleted then 1 else 0) * valueTailDeleted) ::
    ((u64ToLeBytes createdAt).take createdWidth ++
      if createdAt ≠ updatedAt then (u64ToLeBytes updatedAt).take updatedWidth else [])

section Readers

variable (usizeBits : ℕ)

/-- `read_minimal_le_timestamp`: `width` bytes whose last one is not zero. Every caller passes
a width of at most eight, the bytes of a `u64`. -/
def readMinimalLeTimestamp (bytes : List UInt8) (offset width : ℕ) (context : String) :
    Except LixError (ℕ × ℕ) :=
  if 2 ^ usizeBits ≤ offset + width then
    .error (codecError (context ++ " timestamp width overflows usize"))
  else if bytes.length < offset + width then
    .error (codecError (context ++ " timestamp is truncated"))
  else
    let encoded := (bytes.drop offset).take width
    if 0 < width ∧ encoded[width - 1]? = some 0 then
      .error (codecError (context ++ " timestamp is not minimally encoded"))
    else .ok (u64FromLeBytes (encoded ++ List.replicate (8 - width) 0), offset + width)

/-- The `match` on the code in `read_value_tail_fields`: the created and updated widths and
whether the timestamps are equal, or `none` for a reserved code. -/
def tailWidths (code : UInt8) : Option (ℕ × ℕ × Bool) :=
  if code ≤ valueTimestampMaxWidth then some (code.toNat, 0, true)
  else if valueTailDistinctMin ≤ code ∧ code ≤ valueTailDistinctMax then
    let widths := code - valueTailDistinctMin
    some ((widths / valueTimestampWidthCount).toNat, (widths % valueTimestampWidthCount).toNat, false)
  else none

/-- `read_value_tail_fields`: the deletion bit and the two packed timestamps. -/
def readValueTailFields (bytes : List UInt8) (offset : ℕ) (context : String) :
    Except LixError ((Bool × ℕ × ℕ) × ℕ) :=
  match bytes[offset]? with
  | none => .error (codecError (context ++ " state tail is truncated"))
  | some tag =>
    let offset := offset + 1
    let deleted := tag &&& valueTailDeleted ≠ 0
    let code := tag &&& valueTailCodeMask
    match tailWidths code with
    | none => .error (codecError (context ++ " has reserved state-tail tag " ++ toString code))
    | some (createdWidth, updatedWidth, equal) => do
      let (createdAt, offset) ← readMinimalLeTimestamp usizeBits bytes offset createdWidth context
      let (updatedAt, offset) ←
        if equal then pure (createdAt, offset)
        else readMinimalLeTimestamp usizeBits bytes offset updatedWidth context
      if !equal ∧ createdAt = updatedAt then
        throw (codecError (context ++ " uses the distinct timestamp form for equal values"))
      return ((deleted, createdAt, updatedAt), offset)

/-- `read_value_tail`: the bytes of one state tail. -/
def readValueTail (bytes : List UInt8) (offset : ℕ) (context : String) :
    Except LixError (List UInt8 × ℕ) := do
  let (_, tailEnd) ← readValueTailFields usizeBits bytes offset context
  return (window bytes offset tailEnd, tailEnd)

end Readers

/-! ## Values -/

/-- `TrackedStateIndexValueRef`, the timestamps as their packed `u64`. -/
structure TrackedStateIndexValue where
  changeId : Vector UInt8 16
  commitId : Vector UInt8 16
  deleted : Bool
  createdAt : UInt64
  updatedAt : UInt64
  deriving DecidableEq, Repr

/-- `encode_value_ref`: the two ids, then the state tail. -/
def encodeValueRef (value : TrackedStateIndexValue) : List UInt8 :=
  value.changeId.toList ++ value.commitId.toList ++
    writeValueTail value.deleted value.createdAt.toNat value.updatedAt.toNat

/-! ## Nodes -/

structure EncodedLeafEntry where
  key : List UInt8
  value : List UInt8
  deriving DecidableEq, Repr

structure ChildSummary where
  firstKey : List UInt8
  lastKey : List UInt8
  childHash : Vector UInt8 trackedStateHashBytes
  subtreeCount : UInt64
  deriving DecidableEq, Repr

/-- `DecodedLeafNodeRef`: the entries its arena ranges select. -/
structure DecodedLeafNodeRef where
  entries : List EncodedLeafEntry
  deriving DecidableEq, Repr

structure DecodedInternalNode where
  children : List ChildSummary
  deriving DecidableEq, Repr

inductive DecodedNodeRef where
  | leaf (node : DecodedLeafNodeRef)
  | internal (node : DecodedInternalNode)
  deriving DecidableEq, Repr

/-! ### Encoders -/

/-- The occurrence counts of the dictionaries: the slot of a value seen before is bumped, a new
value gets a slot at the end. -/
def bumpCount {β : Type} [DecidableEq β] (value : β) : List (β × ℕ) → List (β × ℕ)
  | [] => [(value, 1)]
  | (known, count) :: rest =>
    if known = value then (known, count + 1) :: rest else (known, count) :: bumpCount value rest

/-- The values seen more than once, in the order of their first occurrence. -/
def repeatedValues {β : Type} [DecidableEq β] (values : List β) : List β :=
  (values.foldl (fun counts value => bumpCount value counts) []).filterMap fun (value, count) =>
    if count > 1 then some value else none

/-- `repeated_dictionary`: the repeated `width`-byte slices at `start` of the values. -/
def repeatedDictionary (width : ℕ) (entries : List EncodedLeafEntry) (start : ℕ) :
    List (List UInt8) :=
  repeatedValues (entries.map fun entry => window entry.value start (start + width))

/-- `repeated_tail_dictionary`: the repeated state tails. -/
def repeatedTailDictionary (entries : List EncodedLeafEntry) : List (List UInt8) :=
  repeatedValues (entries.map fun entry => entry.value.drop valueStateTailStart)

/-- A dictionary slot counted from one, or zero for a value not in the dictionary. -/
def positionRef (dictionary : List (List UInt8)) (value : List UInt8) : ℕ :=
  match dictionary.findIdx? (· = value) with
  | some index => index + 1
  | none => 0

def dictionaryRef (dictionary : List (List UInt8)) (value : List UInt8) : ℕ :=
  positionRef dictionary value

def sliceDictionaryRef (dictionary : List (List UInt8)) (value : List UInt8) : ℕ :=
  positionRef dictionary value

/-- `direct_leaf_sequence`: the commit id and first packed change ordinal, when every entry has
that commit id and a change id made of its first twelve bytes and the ordinal counted up. -/
def directLeafSequence (entries : List EncodedLeafEntry) : Option (List UInt8 × ℕ) :=
  match entries with
  | [] => none
  | first :: _ =>
    let commitId := window first.value valueCommitIdStart valueCommitIdEnd
    let firstChange := first.value.take valueChangeIdEnd
    if firstChange.take 12 ≠ commitId.take 12 then none
    else
      let firstPacked := fromBeBytes (firstChange.drop 12)
      if entries.zipIdx.all fun (entry, ordinal) =>
          window entry.value valueCommitIdStart valueCommitIdEnd = commitId ∧
          entry.value.take 12 = commitId.take 12 ∧ ordinal < 2 ^ 32 ∧
          firstPacked + ordinal < 2 ^ 32 ∧
          fromBeBytes (window entry.value 12 valueChangeIdEnd) = firstPacked + ordinal
      then some (commitId, firstPacked) else none

/-- The entry loop of the v4 leaf encoder, after the key before `entries`. -/
def writeLeafEntries (commitDictionary tailDictionary : List (List UInt8)) :
    List UInt8 → List EncodedLeafEntry → List UInt8
  | _, [] => []
  | previousKey, entry :: rest =>
    let commitId := window entry.value valueCommitIdStart valueCommitIdEnd
    let commitRef := dictionaryRef commitDictionary commitId
    let tail := entry.value.drop valueStateTailStart
    let tailRef := sliceDictionaryRef tailDictionary tail
    writeFrontCoded previousKey entry.key ++ entry.value.take valueChangeIdEnd ++
      writeVarint commitRef ++ (if commitRef = 0 then commitId else []) ++
      writeVarint tailRef ++ (if tailRef = 0 then tail else []) ++
      writeLeafEntries commitDictionary tailDictionary entry.key rest

/-- The entry loop of `encode_direct_leaf_v1`: keys and state tails only. -/
def writeDirectLeafEntries (tailDictionary : List (List UInt8)) :
    List UInt8 → List EncodedLeafEntry → List UInt8
  | _, [] => []
  | previousKey, entry :: rest =>
    let tail := entry.value.drop valueStateTailStart
    let tailRef := sliceDictionaryRef tailDictionary tail
    writeFrontCoded previousKey entry.key ++ writeVarint tailRef ++
      (if tailRef = 0 then tail else []) ++ writeDirectLeafEntries tailDictionary entry.key rest

def encodeDirectLeafV1 (entries : List EncodedLeafEntry) (commitId : List UInt8) (firstPacked : ℕ) :
    List UInt8 :=
  let tailDictionary := repeatedTailDictionary entries
  nodeKindDirectLeafV1 :: (writeVarint entries.length ++ commitId ++ beBytes 4 firstPacked ++
    writeVarint tailDictionary.length ++ tailDictionary.flatten ++
    writeDirectLeafEntries tailDictionary [] entries)

/-- `encode_leaf_node`, through `encode_leaf_node_refs_inner`: `none` where its assertion on the
value lengths panics. A direct sequence takes the direct layout, anything else v4. The key
loops write the front coding of `write_front_coded` inline. -/
def encodeLeafNode (entries : List EncodedLeafEntry) : Option (List UInt8) :=
  if entries.all fun entry => valueMinBytes ≤ entry.value.length ∧ entry.value.length ≤ valueMaxBytes
  then
    some <| match directLeafSequence entries with
      | some (commitId, firstPacked) => encodeDirectLeafV1 entries commitId firstPacked
      | none =>
        let commitDictionary := repeatedDictionary 16 entries valueCommitIdStart
        let tailDictionary := repeatedTailDictionary entries
        nodeKindLeafV4 :: (writeVarint entries.length ++ writeVarint commitDictionary.length ++
          commitDictionary.flatten ++ writeVarint tailDictionary.length ++ tailDictionary.flatten ++
          writeLeafEntries commitDictionary tailDictionary [] entries)
  else none

/-- The child loop of the internal encoder, after the last key before `children`. -/
def writeInternalChildren : List UInt8 → List ChildSummary → List UInt8
  | _, [] => []
  | previousLast, child :: rest =>
    writeFrontCoded previousLast child.firstKey ++ writeFrontCoded child.firstKey child.lastKey ++
      child.childHash.toList ++ writeVarint child.subtreeCount.toNat ++
      writeInternalChildren child.lastKey rest

/-- `encode_internal_node`, through `encode_internal_node_refs_inner`: `none` where its
assertion on an empty node panics. -/
def encodeInternalNode (children : List ChildSummary) : Option (List UInt8) :=
  if children = [] then none
  else some (nodeKindInternalV4 :: (writeVarint children.length ++ writeInternalChildren [] children))

/-! ### Decoders

The three node decoders each have their own `usize_from` and `slice`; they differ only in the
node named in their messages, here `node`. -/

section Decoders

variable (usizeBits : ℕ)

def usizeFrom (node what : String) (value : ℕ) : Except LixError ℕ :=
  if value < 2 ^ usizeBits then .ok value
  else .error (codecError (node ++ " " ++ what ++ " does not fit in usize"))

def slice (node : String) (body : List UInt8) (offset len : ℕ) :
    Except LixError ({ bytes : List UInt8 // bytes.length = len } × ℕ) :=
  if 2 ^ usizeBits ≤ offset + len then .error (codecError (node ++ " length overflow"))
  else if h : offset + len ≤ body.length then
    .ok (⟨(body.drop offset).take len, length_take_drop_of_add_le h⟩, offset + len)
  else .error (codecError (node ++ " is truncated"))

def internalNode : String := "tracked-state internal node"
def leafNode : String := "tracked-state leaf node"
def directLeafNode : String := "tracked-state direct leaf node"

/-- `front_coded_into` of the internal decoder: a boundary key from the `shared` bytes of its
base and a suffix. -/
def frontCodedInto (body : List UInt8) (offset : ℕ) (base : Option (List UInt8)) :
    Except LixError (List UInt8 × ℕ) := do
  let (shared, offset) ← readVarint body offset internalNode
  let shared ← usizeFrom usizeBits internalNode "shared boundary length" shared
  let baseLen := (base.map List.length).getD 0
  if shared > baseLen then
    throw (codecError "tracked-state internal node shares more boundary bytes than its base holds")
  let (suffixLen, offset) ← readVarint body offset internalNode
  let suffixLen ← usizeFrom usizeBits internalNode "boundary suffix length" suffixLen
  let (suffix, offset) ← slice usizeBits internalNode body offset suffixLen
  return ((base.getD []).take shared ++ suffix.1, offset)

/-- The child loop of `decode_internal_v4`, `count` children to go after `previousLast`. -/
def decodeInternalChildren (body : List UInt8) :
    ℕ → ℕ → Option (List UInt8) → Except LixError (List ChildSummary × ℕ)
  | 0, offset, _ => .ok ([], offset)
  | count + 1, offset, previousLast => do
    let (firstKey, offset) ← frontCodedInto usizeBits body offset previousLast
    let (lastKey, offset) ← frontCodedInto usizeBits body offset (some firstKey)
    if compare firstKey lastKey = .gt then
      throw (codecError "tracked-state internal node child has an inverted key range")
    if previousLast.any fun previous => compare previous firstKey ≠ .lt then
      throw (codecError "tracked-state internal node children overlap or are unordered")
    let (childHash, offset) ← slice usizeBits internalNode body offset trackedStateHashBytes
    let (subtreeCount, offset) ← readVarint body offset internalNode
    if subtreeCount = 0 then
      throw (codecError "tracked-state internal node child has an empty subtree")
    let (rest, offset) ← decodeInternalChildren body count offset (some lastKey)
    return (⟨firstKey, lastKey, ⟨childHash.1.toArray, by rw [List.size_toArray, childHash.2]⟩,
      UInt64.ofNat subtreeCount⟩ :: rest, offset)

def decodeInternalV4 (body : List UInt8) : Except LixError DecodedInternalNode := do
  let (childCount, offset) ← readVarint body 0 internalNode
  let childCount ← usizeFrom usizeBits internalNode "child count" childCount
  if childCount = 0 then throw (codecError "tracked-state internal node has no children")
  let (children, offset) ← decodeInternalChildren usizeBits body childCount offset none
  if offset ≠ body.length then throw (codecError "tracked-state internal node has trailing bytes")
  return ⟨children⟩

/-- The dictionary loop of the leaf decoders: `count` state tails. -/
def readValueTails (body : List UInt8) (node : String) :
    ℕ → ℕ → Except LixError (List (List UInt8) × ℕ)
  | 0, offset => .ok ([], offset)
  | count + 1, offset => do
    let (tail, offset) ← readValueTail usizeBits body offset node
    let (tails, offset) ← readValueTails body node count offset
    return (tail :: tails, offset)

/-- The key of a leaf entry: its shared length and suffix, checked against the key before it.
Both leaf decoders read keys this way. -/
def readLeafKey (node : String) (body : List UInt8) (offset : ℕ) (previousKey : Option (List UInt8)) :
    Except LixError (List UInt8 × ℕ) := do
  let (shared, offset) ← readVarint body offset node
  let shared ← usizeFrom usizeBits node "shared key length" shared
  let (suffixLen, offset) ← readVarint body offset node
  let suffixLen ← usizeFrom usizeBits node "key suffix length" suffixLen
  if shared > (previousKey.map List.length).getD 0 then
    throw (codecError (node ++ " shares more key bytes than the previous key holds"))
  let (suffix, offset) ← slice usizeBits node body offset suffixLen
  let key := (previousKey.getD []).take shared ++ suffix.1
  if previousKey.any fun previous => compare previous key ≠ .lt then
    throw (codecError (node ++ " keys are not strictly ordered"))
  return (key, offset)

/-- The state tail of a leaf entry: a literal tail, or a slot of the tail dictionary. -/
def readLeafTail (node : String) (body : List UInt8) (offset : ℕ)
    (tailDictionary : List (List UInt8)) : Except LixError (List UInt8 × ℕ) := do
  let (tailRef, offset) ← readVarint body offset node
  let tailRef ← usizeFrom usizeBits node "tail dictionary ref" tailRef
  if tailRef = 0 then readValueTail usizeBits body offset node
  else if tailRef > tailDictionary.length then
    throw (codecError (node ++ " tail dictionary ref is out of bounds"))
  else return (tailDictionary[tailRef - 1]?.getD [], offset)

/-- The commit id of a v4 leaf entry: a literal id, or a slot of the commit dictionary, whose
`commitDictLen` ids lie back to back in `commitDictionary`. -/
def readCommitId (body : List UInt8) (offset commitDictLen : ℕ) (commitDictionary : List UInt8) :
    Except LixError (List UInt8 × ℕ) := do
  let (commitRef, offset) ← readVarint body offset leafNode
  let commitRef ← usizeFrom usizeBits leafNode "commit dictionary ref" commitRef
  if commitRef = 0 then
    let (commitId, offset) ←
      slice usizeBits leafNode body offset (valueCommitIdEnd - valueCommitIdStart)
    return (commitId.1, offset)
  else if commitRef > commitDictLen then
    throw (codecError "tracked-state leaf node commit dictionary ref is out of bounds")
  else return (window commitDictionary ((commitRef - 1) * 16) (commitRef * 16), offset)

/-- The entry loop of `decode_leaf_v4`, `count` entries to go after `previousKey`. -/
def decodeLeafEntries (body : List UInt8) (commitDictLen : ℕ) (commitDictionary : List UInt8)
    (tailDictionary : List (List UInt8)) :
    ℕ → ℕ → Option (List UInt8) → Except LixError (List EncodedLeafEntry × ℕ)
  | 0, offset, _ => .ok ([], offset)
  | count + 1, offset, previousKey => do
    let (key, offset) ← readLeafKey usizeBits leafNode body offset previousKey
    let (changeId, offset) ← slice usizeBits leafNode body offset valueChangeIdEnd
    let (commitId, offset) ← readCommitId usizeBits body offset commitDictLen commitDictionary
    let (tail, offset) ← readLeafTail usizeBits leafNode body offset tailDictionary
    let (rest, offset) ← decodeLeafEntries body commitDictLen commitDictionary tailDictionary count offset
      (some key)
    return (⟨key, changeId.1 ++ commitId ++ tail⟩ :: rest, offset)

def decodeLeafV4 (body : List UInt8) : Except LixError DecodedLeafNodeRef := do
  let (entryCount, offset) ← readVarint body 0 leafNode
  let entryCount ← usizeFrom usizeBits leafNode "entry count" entryCount
  let (commitDictLen, offset) ← readVarint body offset leafNode
  let commitDictLen ← usizeFrom usizeBits leafNode "commit dictionary length" commitDictLen
  if 2 ^ usizeBits ≤ commitDictLen * 16 then
    throw (codecError "tracked-state leaf node commit dictionary length overflow")
  let (commitDictionary, offset) ← slice usizeBits leafNode body offset (commitDictLen * 16)
  let (tailDictLen, offset) ← readVarint body offset leafNode
  let tailDictLen ← usizeFrom usizeBits leafNode "tail dictionary length" tailDictLen
  let (tailDictionary, offset) ← readValueTails usizeBits body leafNode tailDictLen offset
  let (entries, offset) ←
    decodeLeafEntries usizeBits body commitDictLen commitDictionary.1 tailDictionary entryCount offset none
  if offset ≠ body.length then throw (codecError "tracked-state leaf node has trailing bytes")
  return ⟨entries⟩

/-- The entry loop of `decode_direct_leaf_v1`: entry `ordinal` takes the packed change ordinal
`firstPacked + ordinal`. -/
def decodeDirectLeafEntries (body commitId : List UInt8) (firstPacked : ℕ)
    (tailDictionary : List (List UInt8)) :
    ℕ → ℕ → ℕ → Option (List UInt8) → Except LixError (List EncodedLeafEntry × ℕ)
  | 0, _, offset, _ => .ok ([], offset)
  | count + 1, ordinal, offset, previousKey => do
    let (key, offset) ← readLeafKey usizeBits directLeafNode body offset previousKey
    let (tail, offset) ← readLeafTail usizeBits directLeafNode body offset tailDictionary
    if 2 ^ 32 ≤ ordinal then
      throw (codecError "tracked-state direct leaf node ordinal exceeds u32")
    if 2 ^ 32 ≤ firstPacked + ordinal then
      throw (codecError "tracked-state direct leaf node address overflows u32")
    let packed := firstPacked + ordinal
    let (rest, offset) ←
      decodeDirectLeafEntries body commitId firstPacked tailDictionary count (ordinal + 1) offset (some key)
    return (⟨key, commitId.take 12 ++ beBytes 4 packed ++ commitId ++ tail⟩ :: rest, offset)

def decodeDirectLeafV1 (body : List UInt8) : Except LixError DecodedLeafNodeRef := do
  let (entryCount, offset) ← readVarint body 0 directLeafNode
  let entryCount ← usizeFrom usizeBits directLeafNode "entry count" entryCount
  if entryCount = 0 then throw (codecError "tracked-state direct leaf node has no entries")
  let (commitId, offset) ← slice usizeBits directLeafNode body offset 16
  let (packedBytes, offset) ← slice usizeBits directLeafNode body offset 4
  let firstPacked := fromBeBytes packedBytes.1
  let (tailDictLen, offset) ← readVarint body offset directLeafNode
  let tailDictLen ← usizeFrom usizeBits directLeafNode "tail dictionary length" tailDictLen
  let (tailDictionary, offset) ← readValueTails usizeBits body directLeafNode tailDictLen offset
  let (entries, offset) ←
    decodeDirectLeafEntries usizeBits body commitId.1 firstPacked tailDictionary entryCount 0 offset none
  if offset ≠ body.length then
    throw (codecError "tracked-state direct leaf node has trailing bytes")
  return ⟨entries⟩

/-- `decode_node_ref`: the kind byte, then the body of that kind of node. -/
def decodeNodeRef (bytes : List UInt8) : Except LixError DecodedNodeRef :=
  match bytes with
  | [] => .error (codecError "tracked-state tree node is empty")
  | kind :: body =>
    if kind = nodeKindLeafV4 then (decodeLeafV4 usizeBits body).map .leaf
    else if kind = nodeKindInternalV4 then (decodeInternalV4 usizeBits body).map .internal
    else if kind = nodeKindDirectLeafV1 then (decodeDirectLeafV1 usizeBits body).map .leaf
    else .error (codecError ("tracked-state tree node has unknown kind byte " ++ toString kind))

end Decoders

end Lix.NodeCodec
