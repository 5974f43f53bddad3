import Lix.ListWindow
import Lix.KeyCodec
import Lix.TrackedStateDiff

/-! Flat binary deltas of the binary content-addressed store (`binary_cas/kv.rs`). A blob
written as a small splice of a stored blob is kept as a program of segments over a base blob:
a copy appends a range of the base, an insert appends its own bytes. `apply_flat_delta_from_chunks`
runs a program over the base's decoded chunks, and `try_stage_blob_write_as_flat_delta` builds the
program of a splice by slicing the program of the blob it edits around the splice, putting the
inserted bytes between, and merging neighbouring segments.

Offsets and lengths are `ℕ`. The source's `u64` and `usize` overflow checks bound sums of ranges of
a base held in memory, which fit; they are left out, with the `usize` conversions of `u64`
sizes. -/
namespace Lix.BinaryCas
open ListWindow KeyCodec

/-- A content address: the 32-byte hash of a blob's bytes. -/
structure BlobId where
  bytes : Vector UInt8 32
  deriving DecidableEq, Repr

def BlobId.toHex (id : BlobId) : String := String.join (id.bytes.toList.map TrackedState.hexByte)

inductive BlobDeltaSegment where
  | copy (offset length : ℕ)
  | insert (bytes : List UInt8)
  deriving DecidableEq, Repr

def deltaSegmentLen : BlobDeltaSegment → ℕ
  | .copy _ length => length
  | .insert bytes => bytes.length

section Program

/-- What a segment appends: a copy the base range `offset..offset + length`, which must lie in
the base; an insert its bytes. -/
def segmentBytes (base : List UInt8) : BlobDeltaSegment → Option (List UInt8)
  | .copy offset length =>
    if offset + length ≤ base.length then some (window base offset (offset + length)) else none
  | .insert bytes => some bytes

/-- The bytes a program spells over a base: each segment's bytes in order. -/
def applyDelta (base : List UInt8) (segments : List BlobDeltaSegment) : Option (List UInt8) :=
  (segments.mapM (segmentBytes base)).map List.flatten

end Program

section Slice

/-- The part `localStart..localEnd` of one segment. -/
def sliceSegment (segment : BlobDeltaSegment) (localStart localEnd : ℕ) : BlobDeltaSegment :=
  match segment with
  | .copy offset _ => .copy (offset + localStart) (localEnd - localStart)
  | .insert bytes => .insert (window bytes localStart localEnd)

/-- The loop of `slice_delta_segments`, at logical position `logical` of the program's bytes:
keep the part of each segment inside `start..stop`, and stop after the segment that reaches
`stop`. -/
def sliceLoop (start stop : ℕ) :
    ℕ → List BlobDeltaSegment → List BlobDeltaSegment → Option (List BlobDeltaSegment)
  | logical, out, [] => if logical ≥ stop then some out else none
  | logical, out, segment :: rest =>
    let segmentEnd := logical + deltaSegmentLen segment
    let takeStart := max start logical
    let takeEnd := min stop segmentEnd
    let out := if takeStart < takeEnd then
        out ++ [sliceSegment segment (takeStart - logical) (takeEnd - logical)]
      else out
    if segmentEnd ≥ stop then some out else sliceLoop start stop segmentEnd out rest

/-- The program of the bytes `start..stop` of a program's bytes; `none` when the range is
reversed or runs past the program. -/
def sliceDeltaSegments (segments : List BlobDeltaSegment) (start stop : ℕ) :
    Option (List BlobDeltaSegment) :=
  if start > stop then none else sliceLoop start stop 0 [] segments

end Slice

section Normalize

/-- One step of `normalize_delta_segments`: drop an empty segment; grow a last copy that ends
where the next copy starts, or a last insert by the next insert; otherwise push. -/
def pushNormalized (out : List BlobDeltaSegment) (segment : BlobDeltaSegment) :
    List BlobDeltaSegment :=
  if deltaSegmentLen segment = 0 then out
  else
    match out.getLast?, segment with
    | some (.copy offset length), .copy nextOffset nextLength =>
      if offset + length = nextOffset then out.dropLast ++ [.copy offset (length + nextLength)]
      else out ++ [segment]
    | some (.insert bytes), .insert next => out.dropLast ++ [.insert (bytes ++ next)]
    | _, _ => out ++ [segment]

def normalizeDeltaSegments (segments : List BlobDeltaSegment) : List BlobDeltaSegment :=
  segments.foldl pushNormalized []

/-- The program `try_stage_blob_write_as_flat_delta` stages for replacing `deleteLen` bytes at
`offset` of the `currentSize` bytes that `segments` spell by `inserted`. -/
def spliceDeltaSegments (segments : List BlobDeltaSegment) (currentSize offset deleteLen : ℕ)
    (inserted : List UInt8) : Option (List BlobDeltaSegment) := do
  let pre ← sliceDeltaSegments segments 0 offset
  let pre := if inserted.length ≠ 0 then pre ++ [.insert inserted] else pre
  let suffix ← sliceDeltaSegments segments (offset + deleteLen) currentSize
  pure (normalizeDeltaSegments (pre ++ suffix))

end Normalize

section Chunks

/-- A decoded chunk of a base blob: its bytes and where they start in the base. -/
structure DecodedBlobChunk where
  rangeStart : ℕ
  bytes : List UInt8
  deriving DecidableEq, Repr

def DecodedBlobChunk.rangeEnd (chunk : DecodedBlobChunk) : ℕ := chunk.rangeStart + chunk.bytes.length

/-- The chunk loop of `append_blob_range_from_chunks`: the part of each chunk inside
`start..stop`, up to the chunk that reaches `stop`. -/
def copyFromChunks (start stop : ℕ) : List DecodedBlobChunk → List UInt8
  | [] => []
  | chunk :: rest =>
    let selectedStart := max start chunk.rangeStart
    let selectedEnd := min stop chunk.rangeEnd
    let piece := if selectedStart < selectedEnd then
        window chunk.bytes (selectedStart - chunk.rangeStart) (selectedEnd - chunk.rangeStart)
      else []
    if chunk.rangeEnd ≥ stop then piece else piece ++ copyFromChunks start stop rest

def invalidCopyRanges (deltaHash : BlobId) : LixError :=
  ⟨"LIX_ERROR_UNKNOWN", "binary CAS delta '" ++ deltaHash.toHex ++ "' has invalid copy ranges"⟩

def appendBlobRangeFromChunks (out : List UInt8) (deltaHash : BlobId) (baseSize offset length : ℕ)
    (baseChunks : List DecodedBlobChunk) : Except LixError (List UInt8) :=
  let stop := offset + length
  if stop > baseSize then .error (invalidCopyRanges deltaHash)
  else if offset = stop then .ok out
  else
    let appended := copyFromChunks offset stop baseChunks
    if appended.length ≠ length then .error (invalidCopyRanges deltaHash)
    else .ok (out ++ appended)

/-- The segment loop of `apply_flat_delta_from_chunks`, which stops as soon as the output
outgrows the declared size. -/
def applySegmentsFromChunks (blobHash : BlobId) (expectedSize baseSize : ℕ)
    (baseChunks : List DecodedBlobChunk) :
    List UInt8 → List BlobDeltaSegment → Except LixError (List UInt8)
  | out, [] => .ok out
  | out, segment :: rest => do
    let out ← match segment with
      | .copy offset length =>
        appendBlobRangeFromChunks out blobHash baseSize offset length baseChunks
      | .insert bytes => pure (out ++ bytes)
    if out.length > expectedSize then
      throw ⟨"LIX_ERROR_UNKNOWN",
        "binary CAS delta '" ++ blobHash.toHex ++ "' exceeds its declared size"⟩
    applySegmentsFromChunks blobHash expectedSize baseSize baseChunks out rest

/-- `apply_flat_delta_from_chunks`, with the store's content hash as `fromContent`. -/
def applyFlatDeltaFromChunks (fromContent : List UInt8 → BlobId) (blobHash : BlobId)
    (sizeBytes baseSize : ℕ) (segments : List BlobDeltaSegment)
    (baseChunks : List DecodedBlobChunk) : Except LixError (List UInt8) := do
  let out ← applySegmentsFromChunks blobHash sizeBytes baseSize baseChunks [] segments
  if out.length ≠ sizeBytes then
    throw ⟨"LIX_ERROR_UNKNOWN", "binary CAS delta '" ++ blobHash.toHex ++ "' expected " ++
      toString sizeBytes ++ " bytes, decoded " ++ toString out.length⟩
  if fromContent out ≠ blobHash then
    throw ⟨"LIX_ERROR_UNKNOWN",
      "binary CAS delta '" ++ blobHash.toHex ++ "' failed content-address verification"⟩
  pure out

end Chunks

end Lix.BinaryCas
