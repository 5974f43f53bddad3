import Lix.JsonBlob
import Lix.ExceptSpec

/-! What the piece table stands for: the bytes of its pieces, one after another. Over blobs whose
pieces are non-empty, within their allocations and add up to the blob's length, every read
(`materialize`, `range`, `contiguous_range`, `bytes_equal`) reads those bytes, and `splice`
rebuilds the pieces so that they stand for the accepted bytes with the splices applied. Every
blob that `from_shared` and `splice` reach is such a blob. -/
namespace Lix.Json
open ListWindow

/-- The bytes a list of pieces stands for. -/
def contents (pieces : List BlobPiece) : List UInt8 := pieces.flatMap BlobPiece.slice

@[simp] theorem contents_nil : contents [] = [] := rfl

@[simp] theorem contents_cons (piece : BlobPiece) (rest : List BlobPiece) :
    contents (piece :: rest) = piece.slice ++ contents rest := rfl

@[simp] theorem contents_append (pieces pieces' : List BlobPiece) :
    contents (pieces ++ pieces') = contents pieces ++ contents pieces' := by
  simp [contents]

/-- A piece holds at least one byte and lies within its allocation. -/
def BlobPiece.Valid (piece : BlobPiece) : Prop :=
  0 < piece.len ∧ piece.start + piece.len ≤ piece.bytes.length

def PiecesValid (pieces : List BlobPiece) : Prop := ∀ piece ∈ pieces, piece.Valid

@[simp] theorem piecesValid_nil : PiecesValid [] := by simp [PiecesValid]

@[simp] theorem piecesValid_cons {piece : BlobPiece} {rest : List BlobPiece} :
    PiecesValid (piece :: rest) ↔ piece.Valid ∧ PiecesValid rest := by
  simp [PiecesValid]

@[simp] theorem piecesValid_append {pieces pieces' : List BlobPiece} :
    PiecesValid (pieces ++ pieces') ↔ PiecesValid pieces ∧ PiecesValid pieces' := by
  simp [PiecesValid, or_imp, forall_and]

theorem length_slice {piece : BlobPiece} (h : piece.start + piece.len ≤ piece.bytes.length) :
    piece.slice.length = piece.len := by
  simp [BlobPiece.slice]
  omega

/-- Once a piece reaches `stop`, nothing of the range lies in what follows it. -/
theorem window_past_stop (xs : List UInt8) {start stop logicalStart len : ℕ}
    (h : stop ≤ logicalStart + len) :
    window xs (start - logicalStart - len) (stop - logicalStart - len) = [] :=
  window_of_le (by omega)

theorem length_contents : ∀ {pieces : List BlobPiece}, PiecesValid pieces →
    (contents pieces).length = (pieces.map BlobPiece.len).sum
  | [], _ => rfl
  | piece :: rest, h => by
    rw [piecesValid_cons] at h
    simp [length_slice h.1.2, length_contents h.2]

/-- The invariant of a blob: valid pieces whose lengths add up to the blob's length, which fits
in `u32`. -/
structure PersistentBlob.Valid (blob : PersistentBlob) : Prop where
  pieces : PiecesValid blob.pieces
  len_eq : blob.len = (blob.pieces.map BlobPiece.len).sum
  len_le : blob.len ≤ maxU32

theorem PersistentBlob.Valid.length_contents {blob : PersistentBlob} (h : blob.Valid) :
    (contents blob.pieces).length = blob.len := by
  rw [Json.length_contents h.pieces, h.len_eq]

section Reading

/-- The part of one piece inside `[start, stop)`, read off the allocation as the loops of
`append_range` and `append_piece_range` do, is the window of the piece's bytes shifted by the
piece's logical start. -/
theorem selected_eq_window {piece : BlobPiece} (h : piece.start + piece.len ≤ piece.bytes.length)
    (start stop logicalStart : ℕ) :
    (if max start logicalStart < min stop (logicalStart + piece.len) then
        window piece.bytes (piece.start + max start logicalStart - logicalStart)
          (piece.start + min stop (logicalStart + piece.len) - logicalStart)
      else []) =
      window piece.slice (start - logicalStart) (stop - logicalStart) := by
  rw [BlobPiece.slice, window_window]
  split_ifs with hsel
  · congr 1 <;> omega
  · refine (window_eq_nil_of_min_le ?_).symm
    omega

theorem appendRangeFrom_eq (start stop : ℕ) : ∀ (logicalStart : ℕ) {pieces : List BlobPiece},
    PiecesValid pieces →
    PersistentBlob.appendRangeFrom start stop logicalStart pieces =
      window (contents pieces) (start - logicalStart) (stop - logicalStart)
  | _, [], _ => by simp [PersistentBlob.appendRangeFrom]
  | logicalStart, piece :: rest, h => by
    rw [piecesValid_cons] at h
    have hbound := h.1.2
    simp only [PersistentBlob.appendRangeFrom]
    rw [selected_eq_window hbound, contents_cons, window_append, length_slice hbound]
    split_ifs with hend
    · rw [window_past_stop _ hend, List.append_nil]
    · rw [appendRangeFrom_eq start stop (logicalStart + piece.len) h.2, Nat.sub_sub, Nat.sub_sub]

namespace PersistentBlob

variable {blob : PersistentBlob}

theorem Valid.materialize_eq (h : blob.Valid) : blob.materialize = contents blob.pieces := by
  rw [materialize, appendRangeFrom_eq 0 blob.len 0 h.pieces, Nat.sub_zero, Nat.sub_zero,
    ← h.length_contents, window_zero_length]

theorem Valid.range_eq (h : blob.Valid) {start stop : ℕ} (hstart : start ≤ stop)
    (hstop : stop ≤ blob.len) : blob.range start stop = .ok (window blob.materialize start stop) := by
  have hin : ¬(start > stop ∨ stop > blob.len) := by omega
  rw [range, if_neg hin, appendRange, if_neg hin, appendRangeFrom_eq start stop 0 h.pieces, h.materialize_eq,
    Nat.sub_zero, Nat.sub_zero]

/-- Once the range starts before the piece at hand, no later piece holds it. -/
theorem contiguousRangeFrom_of_lt {start stop : ℕ} :
    ∀ {logicalStart : ℕ} (pieces : List BlobPiece), start < logicalStart →
      contiguousRangeFrom start stop logicalStart pieces = none
  | _, [], _ => rfl
  | logicalStart, piece :: rest, hlt => by
    have hnot : ¬(start ≥ logicalStart ∧ stop ≤ logicalStart + piece.len) := by omega
    rw [contiguousRangeFrom, if_neg hnot, contiguousRangeFrom_of_lt rest (by omega)]

theorem contiguousRangeFrom_eq_some {start stop : ℕ} {bytes : List UInt8} :
    ∀ {logicalStart : ℕ} {pieces : List BlobPiece}, PiecesValid pieces → logicalStart ≤ start →
      contiguousRangeFrom start stop logicalStart pieces = some bytes →
      bytes = window (contents pieces) (start - logicalStart) (stop - logicalStart)
  | _, [], _, _, hsome => by simp [contiguousRangeFrom] at hsome
  | logicalStart, piece :: rest, h, hle, hsome => by
    rw [piecesValid_cons] at h
    rw [contents_cons, window_append, length_slice h.1.2]
    dsimp only [contiguousRangeFrom] at hsome
    split_ifs at hsome with hin hpiece
    · -- the piece holds the range: the window of its allocation is the window of its bytes
      cases hsome
      rw [window_past_stop _ hin.2, List.append_nil, BlobPiece.slice, window_window]
      congr 1
      omega
    · by_cases hnext : logicalStart + piece.len ≤ start
      · have hnil : window piece.slice (start - logicalStart) (stop - logicalStart) = [] :=
          window_eq_nil_of_length_le (by rw [length_slice h.1.2]; omega) _
        rw [contiguousRangeFrom_eq_some h.2 hnext hsome, hnil, List.nil_append, Nat.sub_sub,
          Nat.sub_sub]
      · rw [contiguousRangeFrom_of_lt rest (by omega)] at hsome
        cases hsome

theorem Valid.contiguousRange_eq_some (h : blob.Valid) {start stop : ℕ} {bytes : List UInt8}
    (hsome : blob.contiguousRange start stop = some bytes) :
    bytes = window blob.materialize start stop := by
  rw [contiguousRange] at hsome
  split_ifs at hsome
  rw [contiguousRangeFrom_eq_some h.pieces (Nat.zero_le start) hsome, h.materialize_eq,
    Nat.sub_zero, Nat.sub_zero]

theorem bytesEqualFrom_iff (other : List UInt8) :
    ∀ {cursor : ℕ} {pieces : List BlobPiece}, PiecesValid pieces → cursor ≤ other.length →
      (bytesEqualFrom other cursor pieces = true ↔ other.drop cursor = contents pieces)
  | cursor, [], _, hcursor => by
    simp [bytesEqualFrom, List.drop_eq_nil_iff]
    omega
  | cursor, piece :: rest, h, hcursor => by
    rw [piecesValid_cons] at h
    rw [bytesEqualFrom, contents_cons, drop_eq_window_append_drop other (Nat.le_add_right cursor piece.len)]
    by_cases hslice : piece.slice = window other cursor (cursor + piece.len)
    · have hfits : cursor + piece.len ≤ other.length := by
        have := congrArg List.length hslice
        rw [length_slice h.1.2, length_window] at this
        omega
      rw [if_neg (not_not_intro hslice), bytesEqualFrom_iff other h.2 hfits, hslice,
        List.append_cancel_left_eq]
    · rw [if_pos hslice, Bool.false_eq_true, false_iff]
      intro happ
      have hfits : cursor + piece.len ≤ other.length := by
        have := congrArg List.length happ
        simp only [List.length_append, length_window, List.length_drop, length_slice h.1.2] at this
        omega
      exact hslice (List.append_inj happ (by simp [length_slice h.1.2]; omega)).1.symm

theorem Valid.bytesEqual_iff (h : blob.Valid) (other : List UInt8) :
    blob.bytesEqual other = true ↔ other = blob.materialize := by
  rw [bytesEqual, h.materialize_eq]
  by_cases hlen : blob.len = other.length
  · rw [if_neg (not_not_intro hlen), bytesEqualFrom_iff other h.pieces (Nat.zero_le _),
      List.drop_zero]
  · rw [if_pos hlen, Bool.false_eq_true, false_iff]
    rintro rfl
    exact hlen h.length_contents.symm

end PersistentBlob

end Reading

section Building

variable {sameAllocation : List UInt8 → List UInt8 → Bool}

theorem slice_of_len_eq_zero {piece : BlobPiece} (h : piece.len = 0) : piece.slice = [] := by
  rw [BlobPiece.slice, h, Nat.add_zero, window_of_le le_rfl]

/-- A piece extended by the range that follows it in its allocation stands for both. -/
theorem slice_extend {previous piece : BlobPiece} (hbytes : previous.bytes = piece.bytes)
    (hstart : previous.start + previous.len = piece.start) :
    ({ previous with len := previous.len + piece.len } : BlobPiece).slice =
      previous.slice ++ piece.slice := by
  simp only [BlobPiece.slice]
  rw [← hbytes, ← hstart, window_append_window _ (by omega) (by omega), Nat.add_assoc]

/-- What `push_blob_piece` does: drop an empty piece, extend the last piece by one that continues
it in the same allocation, or append. -/
theorem pushBlobPiece_cases (output : List BlobPiece) (piece : BlobPiece) :
    (piece.len = 0 ∧ pushBlobPiece sameAllocation output piece = output) ∨
    (∃ init previous, 0 < piece.len ∧ output = init ++ [previous] ∧
      sameAllocation previous.bytes piece.bytes = true ∧ previous.start + previous.len = piece.start ∧
      pushBlobPiece sameAllocation output piece =
        init ++ [{ previous with len := previous.len + piece.len }]) ∨
    (0 < piece.len ∧ pushBlobPiece sameAllocation output piece = output ++ [piece]) := by
  unfold pushBlobPiece
  split_ifs with hzero
  · exact .inl ⟨hzero, rfl⟩
  · split
    · rename_i previous hlast
      obtain ⟨init, rfl⟩ := List.getLast?_eq_some_iff.mp hlast
      split_ifs with hjoin
      · rw [Bool.and_eq_true, beq_iff_eq] at hjoin
        exact .inr (.inl ⟨init, previous, by omega, rfl, hjoin.1, hjoin.2, by
          rw [List.dropLast_concat]⟩)
      · exact .inr (.inr ⟨by omega, rfl⟩)
    · exact .inr (.inr ⟨by omega, rfl⟩)

variable (hsame : ∀ a b, sameAllocation a b = true → a = b)
include hsame

theorem contents_pushBlobPiece (output : List BlobPiece) (piece : BlobPiece) :
    contents (pushBlobPiece sameAllocation output piece) = contents output ++ piece.slice := by
  rcases pushBlobPiece_cases output piece with
    ⟨hzero, hpush⟩ | ⟨init, previous, -, rfl, hbytes, hstart, hpush⟩ | ⟨-, hpush⟩
  · rw [hpush, slice_of_len_eq_zero hzero, List.append_nil]
  · simp [hpush, slice_extend (hsame _ _ hbytes) hstart]
  · simp [hpush]

theorem piecesValid_pushBlobPiece {output : List BlobPiece} {piece : BlobPiece}
    (hvalid : PiecesValid output) (hpiece : piece.start + piece.len ≤ piece.bytes.length) :
    PiecesValid (pushBlobPiece sameAllocation output piece) := by
  rcases pushBlobPiece_cases output piece with
    ⟨-, hpush⟩ | ⟨init, previous, hpos, rfl, hbytes, hstart, hpush⟩ | ⟨hpos, hpush⟩
  · rwa [hpush]
  · -- the extended piece ends where `piece` ends, in the same allocation
    have hsameBytes := hsame _ _ hbytes
    rw [piecesValid_append, piecesValid_cons] at hvalid
    rw [hpush, piecesValid_append, piecesValid_cons]
    refine ⟨hvalid.1, ⟨?_, ?_⟩, piecesValid_nil⟩
    · simp only
      omega
    · simp only [hsameBytes]
      omega
  · rw [hpush, piecesValid_append, piecesValid_cons]
    exact ⟨hvalid, ⟨hpos, hpiece⟩, piecesValid_nil⟩

/-- The part of one piece inside `[start, stop)`, pushed as `append_piece_range` pushes it,
adds the bytes of that part. -/
theorem pushSelected_spec (output : List BlobPiece) (start stop logicalStart : ℕ) {piece : BlobPiece}
    (hpiece : piece.start + piece.len ≤ piece.bytes.length) (hvalid : PiecesValid output) :
    contents (if max start logicalStart < min stop (logicalStart + piece.len) then
        pushBlobPiece sameAllocation output
          ⟨piece.bytes, piece.start + max start logicalStart - logicalStart,
            min stop (logicalStart + piece.len) - max start logicalStart⟩
      else output) =
        contents output ++ window piece.slice (start - logicalStart) (stop - logicalStart) ∧
      PiecesValid (if max start logicalStart < min stop (logicalStart + piece.len) then
        pushBlobPiece sameAllocation output
          ⟨piece.bytes, piece.start + max start logicalStart - logicalStart,
            min stop (logicalStart + piece.len) - max start logicalStart⟩
      else output) := by
  have hselected := selected_eq_window hpiece start stop logicalStart
  split_ifs at hselected ⊢ with hsel
  · have hslice : BlobPiece.slice ⟨piece.bytes, piece.start + max start logicalStart - logicalStart,
        min stop (logicalStart + piece.len) - max start logicalStart⟩ =
        window piece.slice (start - logicalStart) (stop - logicalStart) := by
      rw [← hselected]
      dsimp only [BlobPiece.slice]
      congr 1
      omega
    refine ⟨by rw [contents_pushBlobPiece hsame, hslice], piecesValid_pushBlobPiece hsame hvalid ?_⟩
    simp only
    omega
  · exact ⟨by rw [← hselected, List.append_nil], hvalid⟩

theorem appendPieceRangeFrom_spec (start stop : ℕ) :
    ∀ (output : List BlobPiece) (logicalStart : ℕ) {pieces : List BlobPiece},
      PiecesValid output → PiecesValid pieces →
      contents (appendPieceRangeFrom sameAllocation start stop output logicalStart pieces) =
          contents output ++ window (contents pieces) (start - logicalStart) (stop - logicalStart) ∧
        PiecesValid (appendPieceRangeFrom sameAllocation start stop output logicalStart pieces)
  | output, _, [], hout, _ => by simp [appendPieceRangeFrom, hout]
  | output, logicalStart, piece :: rest, hout, h => by
    rw [piecesValid_cons] at h
    obtain ⟨hselected, hselectedValid⟩ := pushSelected_spec hsame output start stop logicalStart h.1.2 hout
    simp only [appendPieceRangeFrom]
    rw [contents_cons, window_append, length_slice h.1.2]
    by_cases hend : logicalStart + piece.len ≥ stop
    · rw [if_pos hend, window_past_stop _ hend, List.append_nil]
      exact ⟨hselected, hselectedValid⟩
    · rw [if_neg hend]
      obtain ⟨hrest, hrestValid⟩ :=
        appendPieceRangeFrom_spec start stop _ (logicalStart + piece.len) hselectedValid h.2
      rw [hrest, hselected, List.append_assoc, Nat.sub_sub, Nat.sub_sub]
      exact ⟨rfl, hrestValid⟩

theorem PersistentBlob.Valid.appendPieceRange_eq {blob : PersistentBlob} (h : blob.Valid)
    {start stop : ℕ} {output : List BlobPiece} (hstart : start ≤ stop) (hstop : stop ≤ blob.len)
    (hout : PiecesValid output) :
    ∃ pieces, blob.appendPieceRange sameAllocation start stop output = .ok pieces ∧
      contents pieces = contents output ++ window (contents blob.pieces) start stop ∧
      PiecesValid pieces := by
  have hin : ¬(start > stop ∨ stop > blob.len) := by omega
  obtain ⟨hcontents, hvalid⟩ := appendPieceRangeFrom_spec hsame start stop output 0 hout h.pieces
  rw [Nat.sub_zero, Nat.sub_zero] at hcontents
  exact ⟨_, by rw [PersistentBlob.appendPieceRange, if_neg hin], hcontents, hvalid⟩

end Building

section Splicing

theorem maxU32_lt_maxU64 : maxU32 < maxU64 := by decide

@[simp] theorem map_deleteLen_toSplice (splices : List FileEdit) :
    (splices.map FileEdit.toSplice).map Splice.deleteLen = splices.map FileEdit.deleteLen := by
  rw [List.map_map]
  rfl

@[simp] theorem map_insertLength_toSplice (splices : List FileEdit) :
    (splices.map FileEdit.toSplice).map (fun splice => splice.insert.length) =
      splices.map fun splice => splice.insert.length := by
  rw [List.map_map]
  rfl

/-- `validate_splices` accepts exactly the splices that are sorted, apart and within the file. -/
theorem validateSplicesFrom_eq_ok_iff {fileLen : ℕ} (hlen : fileLen ≤ maxU64) :
    ∀ {previousEnd : ℕ} {splices : List FileEdit},
      validateSplicesFrom fileLen previousEnd splices = .ok () ↔
        FitWithin fileLen previousEnd (splices.map FileEdit.toSplice)
  | _, [] => ⟨fun _ => trivial, fun _ => rfl⟩
  | previousEnd, splice :: rest => by
    simp only [validateSplicesFrom, List.map_cons, FitWithin, FileEdit.toSplice]
    split_ifs with hover hsorted hexceeds
    · exact iff_of_false (fun h => by cases h) (fun h => by have := h.2.1; omega)
    · exact iff_of_false (fun h => by cases h) (fun h => by have := h.1; omega)
    · exact iff_of_false (fun h => by cases h) (fun h => by have := h.2.1; omega)
    · rw [validateSplicesFrom_eq_ok_iff hlen]
      exact ⟨fun h => ⟨by omega, by omega, h⟩, fun h => h.2.2⟩

theorem foldlM_checkedAdd (values : List ℕ) : ∀ {total : ℕ}, total ≤ maxU64 →
    values.foldlM checkedAdd total =
      if total + values.sum ≤ maxU64 then .ok (total + values.sum) else .error "splice size overflow"
  | total, htotal => by
    induction values generalizing total with
    | nil => rw [List.sum_nil, Nat.add_zero, if_pos htotal]; rfl
    | cons value rest ih =>
      rw [List.foldlM_cons, checkedAdd, List.sum_cons]
      by_cases hover : total + value > maxU64
      · rw [if_pos hover, if_neg (by omega)]
        rfl
      · rw [if_neg hover]
        show rest.foldlM checkedAdd (total + value) = _
        rw [ih (total + value) (by omega), Nat.add_assoc]

theorem checkedSum_eq (values : List ℕ) :
    checkedSum values =
      if values.sum ≤ maxU64 then .ok values.sum else .error "splice size overflow" := by
  rw [checkedSum, foldlM_checkedAdd values (Nat.zero_le _), Nat.zero_add]

namespace PersistentBlob

variable {sameAllocation : List UInt8 → List UInt8 → Bool}
  (hsame : ∀ a b, sameAllocation a b = true → a = b) {blob : PersistentBlob}
include hsame

/-- One turn of the loop of `splice` on a fitting splice copies the bytes from the cursor up to
the splice, then its insert. -/
theorem Valid.spliceStep_eq (h : blob.Valid) {pieces : List BlobPiece} {cursor : ℕ}
    {splice : FileEdit} (hcursor : cursor ≤ splice.offset)
    (hend : splice.offset + splice.deleteLen ≤ blob.len) (hinsert : splice.insert.length ≤ maxU32)
    (hvalid : PiecesValid pieces) :
    ∃ pieces', blob.spliceStep sameAllocation (pieces, cursor) splice =
        .ok (pieces', splice.offset + splice.deleteLen) ∧
      contents pieces' = contents pieces ++ window (contents blob.pieces) cursor splice.offset ++
        splice.insert ∧
      PiecesValid pieces' := by
  have hlen := h.len_le
  have hbig := maxU32_lt_maxU64
  obtain ⟨copied, hcopy, hcopied, hcopiedValid⟩ :=
    h.appendPieceRange_eq hsame hcursor (by omega : splice.offset ≤ blob.len) hvalid
  rw [spliceStep, if_neg (by omega), if_neg (by omega), if_neg (by omega), hcopy]
  show ∃ pieces', (if splice.insert = [] then _ else _) = _ ∧ _
  by_cases hempty : splice.insert = []
  · refine ⟨copied, by rw [if_pos hempty]; rfl, by rw [hcopied, hempty, List.append_nil],
      hcopiedValid⟩
  · -- the insert is a new allocation, pushed whole
    have hnew : (⟨splice.insert, 0, splice.insert.length⟩ : BlobPiece).slice = splice.insert := by
      rw [BlobPiece.slice, Nat.zero_add, window_zero_length]
    refine ⟨pushBlobPiece sameAllocation copied ⟨splice.insert, 0, splice.insert.length⟩, ?_, ?_, ?_⟩
    · rw [if_neg hempty, if_neg (by omega)]
      rfl
    · rw [contents_pushBlobPiece hsame, hcopied, hnew]
    · exact piecesValid_pushBlobPiece hsame hcopiedValid (by simp)

/-- The loop of `splice` over fitting splices: what the pieces built so far stand for, followed
by the accepted bytes past the cursor, is the accepted bytes with the splices applied. -/
theorem Valid.foldlM_spliceStep (h : blob.Valid) :
    ∀ {splices : List FileEdit} {pieces : List BlobPiece} {cursor : ℕ},
      cursor ≤ blob.len → FitWithin blob.len cursor (splices.map FileEdit.toSplice) →
      (∀ splice ∈ splices, splice.insert.length ≤ maxU32) → PiecesValid pieces →
      ∃ pieces' cursor', splices.foldlM (blob.spliceStep sameAllocation) (pieces, cursor) =
          .ok (pieces', cursor') ∧ cursor' ≤ blob.len ∧ PiecesValid pieces' ∧
        contents pieces' ++ (contents blob.pieces).drop cursor' =
          contents pieces ++ spliceFrom (contents blob.pieces) cursor (splices.map FileEdit.toSplice)
  | [], pieces, cursor, hcursor, _, _, hvalid => ⟨pieces, cursor, rfl, hcursor, hvalid, rfl⟩
  | splice :: rest, pieces, cursor, _, ⟨hstart, hend, hfit⟩, hinserts, hvalid => by
    obtain ⟨stepped, hstep, hstepped, hsteppedValid⟩ :=
      h.spliceStep_eq hsame hstart hend (hinserts splice List.mem_cons_self) hvalid
    obtain ⟨pieces', cursor', hfold, hcursor', hvalid', hcontents⟩ :=
      h.foldlM_spliceStep hend hfit (fun s hs => hinserts s (List.mem_cons_of_mem _ hs))
        hsteppedValid
    refine ⟨pieces', cursor', ?_, hcursor', hvalid', ?_⟩
    · rw [ExceptSpec.foldlM_cons_of_ok hstep]
      exact hfold
    · rw [hcontents, hstepped, List.map_cons, spliceFrom_cons]
      simp only [FileEdit.toSplice, List.append_assoc]

omit hsame in
/-- Over accepted splices, what `splice` deletes is within the blob, and the length it computes
is the length of the accepted bytes with the splices applied. -/
theorem Valid.splice_lengths (h : blob.Valid) {splices : List FileEdit}
    (haccepted : validateSplices blob.len splices = .ok ()) :
    (splices.map FileEdit.deleteLen).sum ≤ blob.len ∧
      (spliceFrom (contents blob.pieces) 0 (splices.map FileEdit.toSplice)).length =
        blob.len - (splices.map FileEdit.deleteLen).sum +
          (splices.map fun splice => splice.insert.length).sum := by
  have hM := h.length_contents
  have hfit : FitWithin (contents blob.pieces).length 0 (splices.map FileEdit.toSplice) := by
    rw [hM]
    exact (validateSplicesFrom_eq_ok_iff (h.len_le.trans maxU32_lt_maxU64.le)).mp haccepted
  have hdeleted := sum_deleteLen_le (Nat.zero_le _) hfit
  have hlength := length_spliceFrom (Nat.zero_le _) hfit
  rw [map_deleteLen_toSplice] at hdeleted hlength
  rw [map_insertLength_toSplice] at hlength
  omega

/-- Over accepted splices that leave at most `u32::MAX` bytes, `splice` succeeds, and the new
pieces stand for the accepted bytes with the splices applied. -/
theorem Valid.splice_eq_ok (h : blob.Valid) {splices : List FileEdit}
    (haccepted : validateSplices blob.len splices = .ok ())
    (hfits : (spliceFrom (contents blob.pieces) 0 (splices.map FileEdit.toSplice)).length ≤ maxU32) :
    ∃ pieces, blob.splice sameAllocation splices =
        .ok ⟨pieces, (spliceFrom (contents blob.pieces) 0 (splices.map FileEdit.toSplice)).length⟩ ∧
      contents pieces = spliceFrom (contents blob.pieces) 0 (splices.map FileEdit.toSplice) ∧
      PiecesValid pieces := by
  have hlen := h.len_le
  have hbig := maxU32_lt_maxU64
  have hM := h.length_contents
  obtain ⟨hdeleted, hlength⟩ := h.splice_lengths haccepted
  have hfit : FitWithin blob.len 0 (splices.map FileEdit.toSplice) :=
    (validateSplicesFrom_eq_ok_iff (by omega)).mp haccepted
  have hinserts : ∀ splice ∈ splices, splice.insert.length ≤ maxU32 := fun splice hmem =>
    (List.le_sum_of_mem (List.mem_map_of_mem hmem :
      splice.insert.length ∈ splices.map fun splice => splice.insert.length)).trans (by omega)
  obtain ⟨pieces, cursor, hfold, hcursor, hvalid, hcontents⟩ :=
    h.foldlM_spliceStep hsame (Nat.zero_le _) hfit hinserts piecesValid_nil
  obtain ⟨final, hfinal, hfinalContents, hfinalValid⟩ :=
    h.appendPieceRange_eq hsame hcursor le_rfl hvalid
  have hresult : contents final = spliceFrom (contents blob.pieces) 0 (splices.map FileEdit.toSplice) := by
    rw [hfinalContents, ← hM, window_length, hcontents, contents_nil, List.nil_append]
  refine ⟨final, ?_, hresult, hfinalValid⟩
  have hD : (splices.map FileEdit.deleteLen).sum ≤ maxU64 := by omega
  have hI : (splices.map fun splice => splice.insert.length).sum ≤ maxU64 := by omega
  rw [splice, haccepted]
  simp only [checkedSum_eq, if_pos hD, if_pos hI, bind, Except.bind]
  rw [if_neg (by omega), if_neg (by omega), hfold]
  simp only [hfinal, hlength]
  rfl

omit hsame in
/-- `splice` succeeds only when the result fits in `u32`. -/
theorem Valid.fits_of_splice_eq_ok (h : blob.Valid) {splices : List FileEdit}
    (haccepted : validateSplices blob.len splices = .ok ()) {blob' : PersistentBlob}
    (hsplice : blob.splice sameAllocation splices = .ok blob') :
    (spliceFrom (contents blob.pieces) 0 (splices.map FileEdit.toSplice)).length ≤ maxU32 := by
  have hbig := maxU32_lt_maxU64
  obtain ⟨hdeleted, hlength⟩ := h.splice_lengths haccepted
  have hD : (splices.map FileEdit.deleteLen).sum ≤ maxU64 := by have := h.len_le; omega
  rw [splice, haccepted] at hsplice
  by_contra hover
  have hI : (splices.map fun splice => splice.insert.length).sum ≤ maxU64 := by
    by_contra hI
    simp only [checkedSum_eq, if_pos hD, if_neg hI, bind, Except.bind] at hsplice
    cases hsplice
  simp only [checkedSum_eq, if_pos hD, if_pos hI, bind, Except.bind] at hsplice
  by_cases hbad : (splices.map FileEdit.deleteLen).sum > blob.len ∨
      blob.len - (splices.map FileEdit.deleteLen).sum +
        (splices.map fun splice => splice.insert.length).sum > maxU64
  · rw [if_pos hbad] at hsplice
    cases hsplice
  · rw [if_neg hbad, if_pos (by omega)] at hsplice
    cases hsplice

omit hsame in
/-- `splice` validates its splices first. -/
theorem validateSplices_of_splice_eq_ok {splices : List FileEdit} {blob' : PersistentBlob}
    (hsplice : blob.splice sameAllocation splices = .ok blob') :
    validateSplices blob.len splices = .ok () := by
  cases hvalidate : validateSplices blob.len splices with
  | error e =>
    rw [splice, hvalidate] at hsplice
    cases hsplice
  | ok u => rfl

/-- A successful splice of a valid blob is valid and stands for the accepted bytes with the
splices applied. -/
theorem Valid.splice_spec (h : blob.Valid) {splices : List FileEdit} {blob' : PersistentBlob}
    (hsplice : blob.splice sameAllocation splices = .ok blob') :
    blob'.Valid ∧
      contents blob'.pieces = spliceFrom (contents blob.pieces) 0 (splices.map FileEdit.toSplice) := by
  have haccepted := validateSplices_of_splice_eq_ok hsplice
  obtain ⟨pieces, hok, hcontents, hvalid⟩ :=
    h.splice_eq_ok hsame haccepted (h.fits_of_splice_eq_ok haccepted hsplice)
  rw [hok] at hsplice
  cases hsplice
  refine ⟨⟨hvalid, ?_, h.fits_of_splice_eq_ok haccepted hok⟩, hcontents⟩
  rw [← hcontents]
  exact Json.length_contents hvalid

end PersistentBlob

theorem PersistentBlob.fromShared_valid {bytes : List UInt8} {blob : PersistentBlob}
    (hshared : PersistentBlob.fromShared bytes = .ok blob) : blob.Valid := by
  rw [PersistentBlob.fromShared] at hshared
  split_ifs at hshared with hbig hzero
  · cases hshared
    exact ⟨piecesValid_nil, by simp [hzero], by simp only; omega⟩
  · cases hshared
    exact ⟨by simp [BlobPiece.Valid]; omega, by simp, by simp only; omega⟩

/-- The blobs the JSON plugin builds: the accepted bytes through `from_shared`, then any number
of successful splices. -/
inductive Reachable (sameAllocation : List UInt8 → List UInt8 → Bool) : PersistentBlob → Prop
  | fromShared {bytes : List UInt8} {blob : PersistentBlob} :
      PersistentBlob.fromShared bytes = .ok blob → Reachable sameAllocation blob
  | splice {blob blob' : PersistentBlob} {splices : List FileEdit} :
      Reachable sameAllocation blob → blob.splice sameAllocation splices = .ok blob' →
      Reachable sameAllocation blob'

theorem Reachable.valid {sameAllocation : List UInt8 → List UInt8 → Bool}
    (hsame : ∀ a b, sameAllocation a b = true → a = b) {blob : PersistentBlob}
    (hreach : Reachable sameAllocation blob) : blob.Valid := by
  induction hreach with
  | fromShared hshared => exact PersistentBlob.fromShared_valid hshared
  | splice _ hsplice ih => exact (ih.splice_spec hsame hsplice).1

end Splicing

section ReachableBlobs

variable {sameAllocation : List UInt8 → List UInt8 → Bool}

theorem persistentBlob_spec (hsame : ∀ a b, sameAllocation a b = true → a = b)
    {blob : PersistentBlob} (hreach : Reachable sameAllocation blob) :
    blob.len = (blob.pieces.map BlobPiece.len).sum ∧ (∀ piece ∈ blob.pieces, 0 < piece.len) ∧
    (∀ splices, validateSplices blob.len splices = .ok () →
      ((∃ blob', blob.splice sameAllocation splices = .ok blob') ↔
        (spliceFrom blob.materialize 0 (splices.map FileEdit.toSplice)).length ≤ maxU32) ∧
      ∀ blob', blob.splice sameAllocation splices = .ok blob' →
        blob'.materialize = spliceFrom blob.materialize 0 (splices.map FileEdit.toSplice)) ∧
    (∀ start stop, start ≤ stop → stop ≤ blob.len →
      blob.range start stop = .ok (window blob.materialize start stop)) ∧
    (∀ start stop bytes, blob.contiguousRange start stop = some bytes →
      bytes = window blob.materialize start stop) ∧
    (∀ other, blob.bytesEqual other = true ↔ other = blob.materialize) := by
  have h := hreach.valid hsame
  refine ⟨h.len_eq, fun piece hmem => (h.pieces piece hmem).1, fun splices haccepted => ⟨?_, ?_⟩,
    fun _ _ => h.range_eq, fun _ _ _ => h.contiguousRange_eq_some, h.bytesEqual_iff⟩
  · rw [h.materialize_eq]
    constructor
    · rintro ⟨blob', hsplice⟩
      exact h.fits_of_splice_eq_ok haccepted hsplice
    · intro hfits
      obtain ⟨pieces, hok, -⟩ := h.splice_eq_ok hsame haccepted hfits
      exact ⟨_, hok⟩
  · intro blob' hsplice
    have hspec := h.splice_spec hsame hsplice
    rw [hspec.1.materialize_eq, hspec.2, h.materialize_eq]

/-- Three accepted bytes, as `from_shared` wraps them. -/
def sharedBlob : PersistentBlob := ⟨[⟨[1, 2, 3], 0, 3⟩], 3⟩

theorem persistentBlob_spec_shared :
    (∀ a b : List UInt8, decide (a = b) = true → a = b) ∧
    Reachable (fun a b => decide (a = b)) sharedBlob ∧
    sharedBlob.len = (sharedBlob.pieces.map BlobPiece.len).sum ∧
    (∀ piece ∈ sharedBlob.pieces, 0 < piece.len) ∧
    (∀ splices, validateSplices sharedBlob.len splices = .ok () →
      ((∃ blob', sharedBlob.splice (fun a b => decide (a = b)) splices = .ok blob') ↔
        (spliceFrom sharedBlob.materialize 0 (splices.map FileEdit.toSplice)).length ≤ maxU32) ∧
      ∀ blob', sharedBlob.splice (fun a b => decide (a = b)) splices = .ok blob' →
        blob'.materialize = spliceFrom sharedBlob.materialize 0 (splices.map FileEdit.toSplice)) ∧
    (∀ start stop, start ≤ stop → stop ≤ sharedBlob.len →
      sharedBlob.range start stop = .ok (window sharedBlob.materialize start stop)) ∧
    (∀ start stop bytes, sharedBlob.contiguousRange start stop = some bytes →
      bytes = window sharedBlob.materialize start stop) ∧
    (∀ other, sharedBlob.bytesEqual other = true ↔ other = sharedBlob.materialize) :=
  ⟨fun _ _ h => of_decide_eq_true h, .fromShared (rfl : PersistentBlob.fromShared [1, 2, 3] = _),
    persistentBlob_spec (fun _ _ h => of_decide_eq_true h)
      (.fromShared (rfl : PersistentBlob.fromShared [1, 2, 3] = _))⟩

end ReachableBlobs

end Lix.Json
