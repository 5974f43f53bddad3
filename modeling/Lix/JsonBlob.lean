import Lix.ListWindow

/-! The persistent piece table of the JSON plugin (`plugins/json/src/core.rs`): the accepted
bytes of a document as a list of pieces, each a range of a shared allocation. `splice` builds a
successor from the pieces around each splice and one new allocation per insert, and joins a
piece to the one before it when both are adjacent ranges of one allocation.

Lengths are `u32` in the source and `ℕ` here, with the 4 GiB checks of `from_shared` and
`splice` kept as errors. The loops add piece lengths up to at most the blob's length, so their
`u32` additions cannot overflow and are plain additions here. Slicing an allocation out of
bounds would panic; a slice here is a `window`, and the pieces of a blob stay in bounds.
`Arc::ptr_eq` is the parameter `sameAllocation`, a test that holds only of one allocation and so
only of equal bytes. -/
namespace Lix.Json
open ListWindow

/-- `u32::MAX`. -/
def maxU32 : ℕ := 2 ^ 32 - 1

/-- `u64::MAX`. -/
def maxU64 : ℕ := 2 ^ 64 - 1

/-- One splice from the host, at an offset into the accepted bytes. -/
structure FileEdit where
  offset : ℕ
  deleteLen : ℕ
  insert : List UInt8
  deriving DecidableEq, Repr

def FileEdit.toSplice (edit : FileEdit) : Splice UInt8 := ⟨edit.offset, edit.deleteLen, edit.insert⟩

/-- `len` bytes of an allocation from `start`. -/
structure BlobPiece where
  bytes : List UInt8
  start : ℕ
  len : ℕ
  deriving DecidableEq, Repr

/-- `piece.bytes[start..start + len]`. -/
def BlobPiece.slice (piece : BlobPiece) : List UInt8 :=
  window piece.bytes piece.start (piece.start + piece.len)

structure PersistentBlob where
  pieces : List BlobPiece
  len : ℕ
  deriving DecidableEq, Repr

section Pieces

variable (sameAllocation : List UInt8 → List UInt8 → Bool)

/-- `push_blob_piece`: an empty piece is dropped, and a piece that continues the last one in
the same allocation extends it. -/
def pushBlobPiece (output : List BlobPiece) (piece : BlobPiece) : List BlobPiece :=
  if piece.len = 0 then output
  else
    match output.getLast? with
    | some previous =>
      if sameAllocation previous.bytes piece.bytes && previous.start + previous.len == piece.start
      then output.dropLast ++ [{ previous with len := previous.len + piece.len }]
      else output ++ [piece]
    | none => output ++ [piece]

/-- The loop of `append_piece_range` from the piece at `logicalStart`: the part of each piece
inside `[start, stop)` is pushed, up to the piece that reaches `stop`. -/
def appendPieceRangeFrom (start stop : ℕ) : List BlobPiece → ℕ → List BlobPiece → List BlobPiece
  | output, _, [] => output
  | output, logicalStart, piece :: rest =>
    let logicalEnd := logicalStart + piece.len
    let selectedStart := max start logicalStart
    let selectedEnd := min stop logicalEnd
    let output := if selectedStart < selectedEnd then
        pushBlobPiece sameAllocation output
          ⟨piece.bytes, piece.start + selectedStart - logicalStart, selectedEnd - selectedStart⟩
      else output
    if logicalEnd ≥ stop then output
    else appendPieceRangeFrom start stop output logicalEnd rest

end Pieces

namespace PersistentBlob

def fromShared (bytes : List UInt8) : Except String PersistentBlob :=
  if bytes.length > maxU32 then .error "JSON supports files smaller than 4GiB"
  else .ok ⟨if bytes.length = 0 then [] else [⟨bytes, 0, bytes.length⟩], bytes.length⟩

/-- The loop of `append_range` from the piece at `logicalStart`: the bytes of each piece inside
`[start, stop)`, up to the piece that reaches `stop`. -/
def appendRangeFrom (start stop : ℕ) : ℕ → List BlobPiece → List UInt8
  | _, [] => []
  | logicalStart, piece :: rest =>
    let logicalEnd := logicalStart + piece.len
    let selectedStart := max start logicalStart
    let selectedEnd := min stop logicalEnd
    let selected := if selectedStart < selectedEnd then
        window piece.bytes (piece.start + selectedStart - logicalStart)
          (piece.start + selectedEnd - logicalStart)
      else []
    if logicalEnd ≥ stop then selected
    else selected ++ appendRangeFrom start stop logicalEnd rest

def appendRange (blob : PersistentBlob) (start stop : ℕ) : Except String (List UInt8) :=
  if start > stop ∨ stop > blob.len then .error "JSON byte range is out of bounds"
  else .ok (appendRangeFrom start stop 0 blob.pieces)

/-- `materialize`: `append_range` over the whole blob, whose bounds check always passes. -/
def materialize (blob : PersistentBlob) : List UInt8 := appendRangeFrom 0 blob.len 0 blob.pieces

def range (blob : PersistentBlob) (start stop : ℕ) : Except String (List UInt8) :=
  if start > stop ∨ stop > blob.len then .error "JSON byte range is out of bounds"
  else blob.appendRange start stop

/-- The loop of `contiguous_range`: the first piece that holds all of `[start, stop)`. -/
def contiguousRangeFrom (start stop : ℕ) : ℕ → List BlobPiece → Option (List UInt8)
  | _, [] => none
  | logicalStart, piece :: rest =>
    let logicalEnd := logicalStart + piece.len
    if start ≥ logicalStart ∧ stop ≤ logicalEnd then
      let pieceStart := piece.start + (start - logicalStart)
      let pieceEnd := piece.start + (stop - logicalStart)
      if pieceStart ≤ pieceEnd ∧ pieceEnd ≤ piece.bytes.length then
        some (window piece.bytes pieceStart pieceEnd)
      else none
    else contiguousRangeFrom start stop logicalEnd rest

def contiguousRange (blob : PersistentBlob) (start stop : ℕ) : Option (List UInt8) :=
  if start > stop ∨ stop > blob.len then none
  else contiguousRangeFrom start stop 0 blob.pieces

/-- The loop of `bytes_equal`: each piece against the bytes at the cursor. -/
def bytesEqualFrom (other : List UInt8) : ℕ → List BlobPiece → Bool
  | cursor, [] => cursor == other.length
  | cursor, piece :: rest =>
    if piece.slice ≠ window other cursor (cursor + piece.len) then false
    else bytesEqualFrom other (cursor + piece.len) rest

def bytesEqual (blob : PersistentBlob) (other : List UInt8) : Bool :=
  if blob.len ≠ other.length then false else bytesEqualFrom other 0 blob.pieces

def appendPieceRange (sameAllocation : List UInt8 → List UInt8 → Bool) (blob : PersistentBlob)
    (start stop : ℕ) (output : List BlobPiece) : Except String (List BlobPiece) :=
  if start > stop ∨ stop > blob.len then .error "JSON piece range is out of bounds"
  else .ok (appendPieceRangeFrom sameAllocation start stop output 0 blob.pieces)

end PersistentBlob

/-- `validate_splices` from the end of the previous splice. -/
def validateSplicesFrom (fileLen : ℕ) : ℕ → List FileEdit → Except String Unit
  | _, [] => pure ()
  | previousEnd, splice :: rest =>
    if splice.offset + splice.deleteLen > maxU64 then .error "splice end overflow"
    else if splice.offset < previousEnd then .error "JSON splices must be sorted and non-overlapping"
    else if splice.offset + splice.deleteLen > fileLen then
      .error "JSON splice exceeds accepted file length"
    else validateSplicesFrom fileLen (splice.offset + splice.deleteLen) rest

def validateSplices (fileLen : ℕ) (splices : List FileEdit) : Except String Unit :=
  validateSplicesFrom fileLen 0 splices

/-- `checked_add` on `u64`, failing as `splice` does. -/
def checkedAdd (total value : ℕ) : Except String ℕ :=
  if total + value > maxU64 then .error "splice size overflow" else .ok (total + value)

/-- A `try_fold` of `checked_add` from `0`. -/
def checkedSum (values : List ℕ) : Except String ℕ := values.foldlM checkedAdd 0

namespace PersistentBlob

variable (sameAllocation : List UInt8 → List UInt8 → Bool)

/-- One turn of the loop of `splice`: the pieces from the cursor up to the splice, then the
insert as a new allocation; the cursor moves past what the splice deletes. -/
def spliceStep (blob : PersistentBlob) (state : List BlobPiece × ℕ) (splice : FileEdit) :
    Except String (List BlobPiece × ℕ) :=
  if splice.offset > maxU32 then .error "splice offset exceeds 4GiB"
  else if splice.offset + splice.deleteLen > maxU64 then .error "splice end overflow"
  else if splice.offset + splice.deleteLen > maxU32 then .error "splice end exceeds 4GiB"
  else do
    let pieces ← blob.appendPieceRange sameAllocation state.2 splice.offset state.1
    if splice.insert = [] then pure (pieces, splice.offset + splice.deleteLen)
    else if splice.insert.length > maxU32 then .error "JSON insert exceeds 4GiB"
    else
      pure (pushBlobPiece sameAllocation pieces ⟨splice.insert, 0, splice.insert.length⟩,
        splice.offset + splice.deleteLen)

def splice (blob : PersistentBlob) (splices : List FileEdit) : Except String PersistentBlob := do
  validateSplices blob.len splices
  let deleted ← checkedSum (splices.map FileEdit.deleteLen)
  let inserted ← checkedSum (splices.map fun splice => splice.insert.length)
  if deleted > blob.len ∨ blob.len - deleted + inserted > maxU64 then
    throw "reconstructed JSON size overflow"
  if blob.len - deleted + inserted > maxU32 then throw "JSON supports files smaller than 4GiB"
  let (pieces, cursor) ← splices.foldlM (blob.spliceStep sameAllocation) ([], 0)
  let pieces ← blob.appendPieceRange sameAllocation cursor blob.len pieces
  pure ⟨pieces, blob.len - deleted + inserted⟩

end PersistentBlob

end Lix.Json
