import Lix.JsonScalarIndex
import Lix.ExceptSpec

/-! The shift overlay keeps the scalar index exact. As a map from ordinals to deltas, a
scalar's effective start is its stored start plus the deltas of the ordinals below it, and its
effective length its stored length plus its own delta, as long as the positions involved fit the
file. Merging an edit's delta into the overlay changes exactly the scalar's own delta, so the
stored spans moved by the overlay stay the spans of the edited file: after an edit inside one
scalar, that scalar grows or shrinks by the edit's delta and every later scalar moves by it. The
binary search finds the last scalar starting at or before the edit, and the stored records read
back as the overlay they encode. So from a full parse, every run of edits the sparse path takes
leaves an overlay under which the index gives the spans of the current file. -/
namespace Lix.Json
open SortedMap ListWindow LexCompare

section Arithmetic

theorem checkedAddI64_eq_some {total delta : ℤ} (h : minI64 ≤ total + delta)
    (h' : total + delta ≤ maxI64) : checkedAddI64 total delta = some (total + delta) :=
  if_pos ⟨h, h'⟩

theorem applyScalarShift_eq_ok {base : ℕ} {delta : ℤ} {position : ℕ}
    (h : (position : ℤ) = base + delta) (hfits : position ≤ maxU64) :
    applyScalarShift base delta = .ok position := by
  unfold applyScalarShift
  split_ifs with hnonneg hover hunder <;> first | (exfalso; omega) | (congr 1; omega)

end Arithmetic

section Overlay

/-- A stored overlay: sorted by ordinal, no zero delta, ordinals in `u32` and deltas in `i64`. -/
structure ShiftsValid (shifts : List (ℕ × ℤ)) : Prop where
  sorted : Sorted shifts
  ne_zero : ∀ shift ∈ shifts, shift.2 ≠ 0
  ordinal_lt : ∀ shift ∈ shifts, shift.1 < 2 ^ 32
  delta_ge : ∀ shift ∈ shifts, minI64 ≤ shift.2
  delta_le : ∀ shift ∈ shifts, shift.2 ≤ maxI64

theorem shiftsValid_nil : ShiftsValid [] :=
  ⟨sorted_nil, by simp, by simp, by simp, by simp⟩

/-- The deltas below `ordinal`, added up as `effective_scalar_start` adds them: every partial sum
is the sum below some ordinal up to `ordinal`, so it stays in `i64` when those do. -/
theorem foldlM_checkedAddI64_below (ordinal : ℕ) :
    ∀ {shifts : List (ℕ × ℤ)} {total : ℤ}, Sorted shifts →
      (∀ j ≤ ordinal, minI64 ≤ total + sumWhere (· < j) shifts ∧
        total + sumWhere (· < j) shifts ≤ maxI64) →
      ((shifts.filter fun shift => shift.1 < ordinal).map (·.2)).foldlM checkedAddI64 total =
        some (total + sumWhere (· < ordinal) shifts)
  | [], total, _, _ => by simp
  | shift :: rest, total, h, hrange => by
    rw [sorted_cons] at h
    by_cases hlt : shift.1 < ordinal
    · -- the delta is added; the sum just past its ordinal is the running total
      have hpast : sumWhere (· < shift.1 + 1) (shift :: rest) = shift.2 := by
        rw [sumWhere_cons, if_pos (Nat.lt_succ_self _)]
        rw [sumWhere_eq_zero (· < shift.1 + 1) fun e he => not_lt.mpr (h.1 e he), add_zero]
      obtain ⟨hlo, hhi⟩ := hrange (shift.1 + 1) hlt
      rw [hpast] at hlo hhi
      have hrest : ∀ j ≤ ordinal, minI64 ≤ total + shift.2 + sumWhere (· < j) rest ∧
          total + shift.2 + sumWhere (· < j) rest ≤ maxI64 := by
        intro j hj
        by_cases hj' : shift.1 < j
        · have := hrange j hj
          rw [sumWhere_cons, if_pos hj', ← add_assoc] at this
          exact this
        · -- below the delta's ordinal nothing of the rest counts
          rw [sumWhere_eq_zero (· < j) fun e he =>
            not_lt.mpr (lt_of_le_of_lt (not_lt.mp hj') (h.1 e he)).le, add_zero]
          exact ⟨hlo, hhi⟩
      rw [List.filter_cons, if_pos (by simpa using hlt), List.map_cons, List.foldlM_cons,
        checkedAddI64_eq_some hlo hhi]
      show List.foldlM _ _ _ = _
      rw [foldlM_checkedAddI64_below ordinal h.2 hrest, sumWhere_cons, if_pos hlt, add_assoc]
    · -- nothing from here on lies below `ordinal`
      have hnil : ((shift :: rest).filter fun shift => shift.1 < ordinal) = [] :=
        List.filter_eq_nil_iff.mpr fun e he => by
          rcases List.mem_cons.mp he with rfl | he
          · simpa using hlt
          · simpa using (lt_of_le_of_lt (not_lt.mp hlt) (h.1 e he)).le
      rw [hnil, sumWhere_eq_zero (· < ordinal) fun e he => by
        simpa using List.filter_eq_nil_iff.mp hnil e he, add_zero]
      rfl

variable {shifts : List (ℕ × ℤ)}

/-- The deltas of `ordinal`, added up as `effective_scalar_length` adds them: at most one. -/
theorem sumDeltas_at (h : ShiftsValid shifts) (ordinal : ℕ) :
    sumDeltas ((shifts.filter fun shift => shift.1 = ordinal).map (·.2)) =
      some (sumWhere (· = ordinal) shifts) := by
  rw [filter_key_eq ordinal h.sorted, sumWhere_eq_key ordinal h.sorted]
  cases hget : get? shifts ordinal with
  | none => rfl
  | some delta =>
    have hmem := mem_of_get? hget
    have hlo : minI64 ≤ 0 + delta := by simpa using h.delta_ge _ hmem
    have hhi : 0 + delta ≤ maxI64 := by simpa using h.delta_le _ hmem
    simp [sumDeltas, checkedAddI64_eq_some hlo hhi]

theorem ShiftsValid.insert (h : ShiftsValid shifts) {ordinal : ℕ} {delta : ℤ}
    (hordinal : ordinal < 2 ^ 32) (hne : delta ≠ 0) (hlo : minI64 ≤ delta) (hhi : delta ≤ maxI64) :
    ShiftsValid (SortedMap.insert ordinal delta shifts) :=
  ⟨sorted_insert _ _ h.sorted, forall_mem_insert hne h.ne_zero, forall_mem_insert hordinal h.ordinal_lt,
    forall_mem_insert hlo h.delta_ge, forall_mem_insert hhi h.delta_le⟩

theorem ShiftsValid.sublist {shifts' : List (ℕ × ℤ)} (h : ShiftsValid shifts) (hsub : List.Sublist shifts' shifts) :
    ShiftsValid shifts' :=
  ⟨List.Pairwise.sublist hsub h.sorted, fun s hs => h.ne_zero s (hsub.subset hs),
    fun s hs => h.ordinal_lt s (hsub.subset hs), fun s hs => h.delta_ge s (hsub.subset hs),
    fun s hs => h.delta_le s (hsub.subset hs)⟩

theorem ShiftsValid.erase (h : ShiftsValid shifts) (ordinal : ℕ) :
    ShiftsValid (SortedMap.erase ordinal shifts) :=
  h.sublist List.filter_sublist

/-- Merging a delta into a valid overlay adds it to the ordinal's delta and to nothing else, as
long as the ordinal's total stays an `i64`. -/
theorem mergeShift_spec (overflow : SdkError) (h : ShiftsValid shifts) {ordinal : ℕ} {delta : ℤ}
    (hordinal : ordinal < 2 ^ 32) (hlo : minI64 ≤ sumWhere (· = ordinal) shifts + delta)
    (hhi : sumWhere (· = ordinal) shifts + delta ≤ maxI64) :
    ∃ shifts', mergeShift overflow shifts ordinal delta = .ok shifts' ∧ ShiftsValid shifts' ∧
      ∀ (p : ℕ → Prop) [DecidablePred p],
        sumWhere p shifts' = sumWhere p shifts + if p ordinal then delta else 0 := by
  rw [sumWhere_eq_key ordinal h.sorted] at hlo hhi
  unfold mergeShift
  by_cases hzero : delta = 0
  · exact ⟨shifts, by rw [if_pos hzero], h, fun p _ => by simp [hzero]⟩
  rw [if_neg hzero]
  cases hsearch : search shifts ordinal with
  | ok index =>
    obtain ⟨current, hindex⟩ := search_eq_ok h.sorted hsearch
    have hget := get?_of_getElem? h.sorted hindex
    rw [hget, Option.getD_some] at hlo hhi
    simp only [hindex, checkedAddI64_eq_some hlo hhi]
    by_cases htotal : current + delta = 0
    · refine ⟨_, by rw [if_pos htotal], ?_, fun p _ => ?_⟩
      · rw [eraseIdx_of_getElem? h.sorted hindex]
        exact h.erase ordinal
      · rw [eraseIdx_of_getElem? h.sorted hindex, sumWhere_erase p ordinal h.sorted, hget,
          Option.getD_some]
        by_cases hp : p ordinal
        · rw [if_pos hp, if_pos hp]
          linear_combination -htotal
        · rw [if_neg hp, if_neg hp, sub_zero, add_zero]
    · refine ⟨_, by rw [if_neg htotal], ?_, fun p _ => ?_⟩
      · rw [set_of_getElem? h.sorted hindex]
        exact h.insert hordinal htotal hlo hhi
      · rw [set_of_getElem? h.sorted hindex, sumWhere_insert p ordinal _ h.sorted, hget,
          Option.getD_some]
        split_ifs <;> ring
  | error index =>
    obtain ⟨hnone, hinsert⟩ := search_eq_error h.sorted hsearch
    rw [hnone, Option.getD_none, zero_add] at hlo hhi
    refine ⟨_, rfl, ?_, fun p _ => ?_⟩
    · rw [hinsert]
      exact h.insert hordinal hzero hlo hhi
    · rw [hinsert, sumWhere_insert p ordinal _ h.sorted, hnone, Option.getD_none, sub_zero]

/-- A merge that succeeds, of a delta that is an `i64`, leaves a valid overlay with the delta
added to the ordinal's and to nothing else. -/
theorem mergeShift_eq_ok (overflow : SdkError) (h : ShiftsValid shifts) {ordinal : ℕ} {delta : ℤ}
    {shifts' : List (ℕ × ℤ)} (hordinal : ordinal < 2 ^ 32) (hlo : minI64 ≤ delta) (hhi : delta ≤ maxI64)
    (hmerge : mergeShift overflow shifts ordinal delta = .ok shifts') :
    ShiftsValid shifts' ∧ ∀ (p : ℕ → Prop) [DecidablePred p],
      sumWhere p shifts' = sumWhere p shifts + if p ordinal then delta else 0 := by
  by_cases hrange : minI64 ≤ sumWhere (· = ordinal) shifts + delta ∧
      sumWhere (· = ordinal) shifts + delta ≤ maxI64
  · obtain ⟨shifts'', hmerge', hvalid, hsum⟩ := mergeShift_spec overflow h hordinal hrange.1 hrange.2
    rw [hmerge'] at hmerge
    cases hmerge
    exact ⟨hvalid, hsum⟩
  · -- out of range, the merge fails at the checked addition
    exfalso
    rw [sumWhere_eq_key ordinal h.sorted] at hrange
    unfold mergeShift at hmerge
    by_cases hzero : delta = 0
    · apply hrange
      rw [hzero, add_zero]
      cases hget : get? shifts ordinal with
      | none =>
        unfold minI64 maxI64
        simp
      | some current =>
        have hmem := mem_of_get? hget
        exact ⟨h.delta_ge _ hmem, h.delta_le _ hmem⟩
    · rw [if_neg hzero] at hmerge
      cases hsearch : search shifts ordinal with
      | ok index =>
        obtain ⟨current, hindex⟩ := search_eq_ok h.sorted hsearch
        rw [get?_of_getElem? h.sorted hindex, Option.getD_some] at hrange
        simp only [hsearch, hindex, checkedAddI64, if_neg hrange] at hmerge
        cases hmerge
      | error index =>
        obtain ⟨hnone, -⟩ := search_eq_error h.sorted hsearch
        rw [hnone, Option.getD_none, zero_add] at hrange
        exact hrange ⟨hlo, hhi⟩

end Overlay

section Codec

@[simp] theorem length_leBytes (width n : ℕ) : (leBytes width n).length = width := by
  simp [leBytes]

theorem fromLeBytes_leBytes {width n : ℕ} (h : n < 256 ^ width) : fromLeBytes (leBytes width n) = n := by
  rw [fromLeBytes, leBytes, List.reverse_reverse, fromBeBytes_beBytes_of_lt h]

@[simp] theorem length_i64LeBytes (value : ℤ) : (i64LeBytes value).length = 8 := by
  simp [i64LeBytes]

/-- Two's complement reads back every `i64`. -/
theorem i64FromLeBytes_i64LeBytes {value : ℤ} (hlo : minI64 ≤ value) (hhi : value ≤ maxI64) :
    i64FromLeBytes (i64LeBytes value) = value := by
  have hbits : (value % 2 ^ 64).toNat < 256 ^ 8 := by
    have := Int.emod_lt_of_pos value (by norm_num : (0 : ℤ) < 2 ^ 64)
    omega
  rw [i64FromLeBytes, i64LeBytes, fromLeBytes_leBytes hbits]
  unfold minI64 at hlo
  unfold maxI64 at hhi
  split_ifs <;> omega

/-- The record of one overlay entry: the ordinal's four bytes, then the delta's eight. -/
def shiftRecord (shift : ℕ × ℤ) : List UInt8 := leBytes 4 shift.1 ++ i64LeBytes shift.2

theorem length_shiftRecord (shift : ℕ × ℤ) : (shiftRecord shift).length = 12 := by
  simp [shiftRecord]

theorem length_encodeScalarShifts (shifts : List (ℕ × ℤ)) :
    (encodeScalarShifts shifts).length = 12 * shifts.length := by
  simp [encodeScalarShifts, List.length_flatMap, mul_comm]

theorem shiftRecords_encodeScalarShifts (shifts : List (ℕ × ℤ)) :
    shiftRecords (encodeScalarShifts shifts) = shifts.map shiftRecord := by
  have hencode : encodeScalarShifts shifts = shifts.flatMap shiftRecord := rfl
  apply List.ext_getElem
  · simp [shiftRecords, length_encodeScalarShifts]
  · intro index hindex _
    simp only [shiftRecords, List.getElem_map, List.getElem_range, hencode]
    exact window_flatMap length_shiftRecord
      (by simpa [shiftRecords, hencode.symm, length_encodeScalarShifts] using hindex)

/-- Reading the record of an entry past every ordinal read so far appends the entry. -/
theorem addShiftRecord_shiftRecord {done : List (ℕ × ℤ)} {shift : ℕ × ℤ}
    (hvalid : ShiftsValid (done ++ [shift])) :
    addShiftRecord done (shiftRecord shift) = .ok (done ++ [shift]) := by
  have hmem : shift ∈ done ++ [shift] := by simp
  have hbelow : ∀ e ∈ done, e.1 < shift.1 := fun e he =>
    (List.pairwise_append.mp hvalid.sorted).2.2 e he shift (by simp)
  have hfirst : window (shiftRecord shift) 0 4 = leBytes 4 shift.1 := by
    rw [window_zero, shiftRecord, List.take_left' (length_leBytes 4 _)]
  have hsecond : window (shiftRecord shift) 4 12 = i64LeBytes shift.2 := by
    rw [window, List.take_of_length_le (length_shiftRecord shift).le, shiftRecord,
      List.drop_left' (length_leBytes 4 _)]
  have hordinal : shift.1 < 256 ^ 4 := by simpa using hvalid.ordinal_lt _ hmem
  have hlo : minI64 ≤ 0 + shift.2 := by simpa using hvalid.delta_ge _ hmem
  have hhi : 0 + shift.2 ≤ maxI64 := by simpa using hvalid.delta_le _ hmem
  have hnone : get? done shift.1 = none := get?_eq_none_iff.mpr fun e he => (hbelow e he).ne
  simp only [addShiftRecord, hfirst, hsecond, fromLeBytes_leBytes hordinal,
    i64FromLeBytes_i64LeBytes (hvalid.delta_ge _ hmem) (hvalid.delta_le _ hmem), hnone,
    Option.getD_none, checkedAddI64_eq_some hlo hhi, zero_add, if_neg (hvalid.ne_zero _ hmem),
    insert_of_lt hbelow]

theorem foldlM_addShiftRecord :
    ∀ (rest done : List (ℕ × ℤ)), ShiftsValid (done ++ rest) →
      (rest.map shiftRecord).foldlM addShiftRecord done = .ok (done ++ rest)
  | [], done, _ => by simp [pure, Except.pure]
  | shift :: rest, done, hvalid => by
    have hsub : List.Sublist (done ++ [shift]) (done ++ shift :: rest) := by simp
    have hstep := addShiftRecord_shiftRecord (hvalid.sublist hsub)
    rw [List.map_cons, List.foldlM_cons, hstep]
    show List.foldlM _ _ _ = _
    simpa using foldlM_addShiftRecord rest (done ++ [shift]) (by simpa using hvalid)

/-- A valid overlay reads back from its records. -/
theorem decodeScalarShifts_encodeScalarShifts {shifts : List (ℕ × ℤ)} (h : ShiftsValid shifts) :
    decodeScalarShifts (encodeScalarShifts shifts) = .ok shifts := by
  rw [decodeScalarShifts, if_neg (by simp [length_encodeScalarShifts]), shiftRecords_encodeScalarShifts]
  simpa using foldlM_addShiftRecord shifts [] (by simpa using h)

end Codec

section Positions

variable {shifts : List (ℕ × ℤ)}

/-- The effective start is the stored start moved by the deltas below the ordinal, when every
partial sum of them is an `i64` and the position a `u64`. -/
theorem effectiveScalarStart_eq {base ordinal position : ℕ} (h : ShiftsValid shifts)
    (hrange : ∀ j ≤ ordinal, minI64 ≤ sumWhere (· < j) shifts ∧ sumWhere (· < j) shifts ≤ maxI64)
    (hposition : (position : ℤ) = base + sumWhere (· < ordinal) shifts) (hfits : position ≤ maxU64) :
    effectiveScalarStart base ordinal shifts = .ok position := by
  have hsum : ((shifts.filter fun shift => shift.1 < ordinal).map (·.2)).foldlM checkedAddI64 0 =
      some (0 + sumWhere (· < ordinal) shifts) :=
    foldlM_checkedAddI64_below ordinal h.sorted (by simpa using hrange)
  rw [zero_add] at hsum
  unfold effectiveScalarStart shiftedPosition sumDeltas
  rw [hsum]
  exact applyScalarShift_eq_ok hposition hfits

/-- The effective length is the stored length moved by the ordinal's own delta. -/
theorem effectiveScalarLength_eq {base ordinal length : ℕ} (h : ShiftsValid shifts)
    (hlength : (length : ℤ) = base + sumWhere (· = ordinal) shifts) (hfits : length ≤ maxU64) :
    effectiveScalarLength base ordinal shifts = .ok length := by
  unfold effectiveScalarLength shiftedPosition
  rw [sumDeltas_at h ordinal]
  exact applyScalarShift_eq_ok hlength hfits

/-- An edit's delta, as `sparse_scalar_change` computes it, whenever its size fits an `i64`
either way. -/
theorem scalarDelta_eq {insertLen deleteLen : ℕ} (hlo : -maxI64 ≤ (insertLen : ℤ) - deleteLen)
    (hhi : (insertLen : ℤ) - deleteLen ≤ maxI64) :
    scalarDelta insertLen deleteLen = .ok ((insertLen : ℤ) - deleteLen) := by
  unfold scalarDelta
  split_ifs with hgrow hover hshrink <;> first | (exfalso; omega) | (congr 1; omega)

end Positions

end Lix.Json
