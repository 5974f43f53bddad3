import Lix.JsonScalarIndexSpec
import Lix.ListSpans

/-! The scalar index and its overlay through runs of sparse edits. A full parse stores the spans
of the file's scalars, in order, and an empty overlay. An edit that lies inside one scalar is
taken by `sparse_scalar_change`: it finds that scalar by binary search over the effective
starts, and adds the edit's delta to the overlay. The invariant `Tracks` says that the overlay
moves every stored span onto the scalar's span in the current file; the edit keeps it, with the
spans moved as `editSpans` moves them, which is how the scalars' bytes move in the edited file,
and under it every scalar's effective start and length are its span in the current file. -/
namespace Lix.Json
open SortedMap ListWindow ListSpans

/-- The span a stored index entry gives its scalar. -/
def ScalarEntry.span (entry : ScalarEntry) : Span := ⟨entry.start, entry.length⟩

theorem ScalarEntry.stop_span (entry : ScalarEntry) : entry.span.stop = entry.start + entry.length :=
  rfl

/-- `readEntry` reads the stored index `entries`. -/
def ReadsIndex (readEntry : ℕ → Except SdkError ScalarEntry) (entries : List ScalarEntry) : Prop :=
  ∀ {i entry}, entries[i]? = some entry → readEntry i = .ok entry

section Tracking

/-- The overlay `shifts` moves the spans stored in `entries` onto `spans`, the scalars' spans in
the current file of `size` bytes: a scalar's start by the deltas of the scalars before it, its
length by its own. The index counts in `u32`, and the stored and the current file fit in `u32`. -/
structure Tracks (entries : List ScalarEntry) (size : ℕ) (spans : List Span)
    (shifts : List (ℕ × ℤ)) : Prop where
  valid : ShiftsValid shifts
  count_eq : spans.length = entries.length
  count_lt : entries.length < 2 ^ 32
  stored_le : ∀ entry ∈ entries, entry.span.stop ≤ maxU32
  layout : Layout size spans
  size_le : size ≤ maxU32
  start_eq : ∀ {i entry span}, entries[i]? = some entry → spans[i]? = some span →
    (span.start : ℤ) = entry.start + sumWhere (· < i) shifts
  length_eq : ∀ {i entry span}, entries[i]? = some entry → spans[i]? = some span →
    (span.length : ℤ) = entry.length + sumWhere (· = i) shifts

variable {entries : List ScalarEntry} {size : ℕ} {spans : List Span} {shifts : List (ℕ × ℤ)}

/-- A full parse: the stored spans are the file's, and the overlay is empty. -/
theorem tracks_parsed (hcount : entries.length < 2 ^ 32) (hlayout : Layout size (entries.map ScalarEntry.span))
    (hsize : size ≤ maxU32) : Tracks entries size (entries.map ScalarEntry.span) [] where
  valid := shiftsValid_nil
  count_eq := List.length_map _
  count_lt := hcount
  stored_le := fun entry hentry =>
    (hlayout.within _ (List.mem_map_of_mem hentry)).trans hsize
  layout := hlayout
  size_le := hsize
  start_eq := fun hentry hspan => by
    rw [List.getElem?_map, hentry, Option.map_some, Option.some_inj] at hspan
    simp [← hspan, ScalarEntry.span]
  length_eq := fun hentry hspan => by
    rw [List.getElem?_map, hentry, Option.map_some, Option.some_inj] at hspan
    simp [← hspan, ScalarEntry.span]

theorem Tracks.exists_span (ht : Tracks entries size spans shifts) {i : ℕ} {entry : ScalarEntry}
    (hentry : entries[i]? = some entry) : ∃ span, spans[i]? = some span := by
  have hi : i < spans.length := ht.count_eq ▸ (List.getElem?_eq_some_iff.mp hentry).1
  exact ⟨spans[i], List.getElem?_eq_getElem hi⟩

theorem Tracks.exists_entry (ht : Tracks entries size spans shifts) {i : ℕ} (hi : i < entries.length) :
    ∃ entry span, entries[i]? = some entry ∧ spans[i]? = some span := by
  obtain ⟨span, hspan⟩ := ht.exists_span (List.getElem?_eq_getElem hi)
  exact ⟨entries[i], span, List.getElem?_eq_getElem hi, hspan⟩

/-- Both ends of the difference lie in `u32`, so every delta sum the index reads is an `i64`. -/
theorem delta_bounds {current stored : ℕ} {delta : ℤ} (hcurrent : current ≤ maxU32)
    (hstored : stored ≤ maxU32) (h : (current : ℤ) = stored + delta) :
    minI64 ≤ delta ∧ delta ≤ maxI64 := by
  unfold maxU32 at hcurrent hstored
  unfold minI64 maxI64
  omega

theorem maxU32_le_maxU64 : maxU32 ≤ maxU64 := by
  unfold maxU32 maxU64
  omega

theorem Tracks.span_le (ht : Tracks entries size spans shifts) {i : ℕ} {span : Span}
    (hspan : spans[i]? = some span) : span.stop ≤ maxU32 :=
  (ht.layout.stop_le hspan).trans ht.size_le

theorem Tracks.entry_le (ht : Tracks entries size spans shifts) {i : ℕ} {entry : ScalarEntry}
    (hentry : entries[i]? = some entry) : entry.span.stop ≤ maxU32 :=
  ht.stored_le entry (List.mem_of_getElem? hentry)

theorem Tracks.below_bounds (ht : Tracks entries size spans shifts) {j : ℕ} (hj : j < entries.length) :
    minI64 ≤ sumWhere (· < j) shifts ∧ sumWhere (· < j) shifts ≤ maxI64 := by
  obtain ⟨entry, span, hentry, hspan⟩ := ht.exists_entry hj
  have hcurrent := ht.span_le hspan
  have hstored := ht.entry_le hentry
  unfold Span.stop at hcurrent
  rw [ScalarEntry.stop_span] at hstored
  exact delta_bounds (by omega) (by omega) (ht.start_eq hentry hspan)

/-- Under a tracking overlay, the effective start of a scalar is its current start. -/
theorem Tracks.effectiveScalarStart_eq (ht : Tracks entries size spans shifts) {i : ℕ}
    {entry : ScalarEntry} {span : Span} (hentry : entries[i]? = some entry)
    (hspan : spans[i]? = some span) : effectiveScalarStart entry.start i shifts = .ok span.start := by
  have hi := (List.getElem?_eq_some_iff.mp hentry).1
  have hfits : span.start ≤ maxU64 := by
    have := ht.span_le hspan
    unfold Span.stop at this
    exact (Nat.le_add_right _ _).trans (this.trans maxU32_le_maxU64)
  exact Json.effectiveScalarStart_eq ht.valid (fun j hj => ht.below_bounds (by omega))
    (ht.start_eq hentry hspan) hfits

/-- Under a tracking overlay, the effective length of a scalar is its current length. -/
theorem Tracks.effectiveScalarLength_eq (ht : Tracks entries size spans shifts) {i : ℕ}
    {entry : ScalarEntry} {span : Span} (hentry : entries[i]? = some entry)
    (hspan : spans[i]? = some span) : effectiveScalarLength entry.length i shifts = .ok span.length := by
  have hfits : span.length ≤ maxU64 := by
    have := ht.span_le hspan
    unfold Span.stop at this
    exact (Nat.le_add_left _ _).trans (this.trans maxU32_le_maxU64)
  exact Json.effectiveScalarLength_eq ht.valid (ht.length_eq hentry hspan) hfits

end Tracking

section Search

variable {readEntry : ℕ → Except SdkError ScalarEntry} {entries : List ScalarEntry} {size : ℕ}
  {spans : List Span} {shifts : List (ℕ × ℤ)}

/-- The binary search of `sparse_scalar_change` under a tracking overlay: from any range that
brackets it, it ends at the count of scalars starting at or before `offset`. -/
theorem Tracks.scalarSearchLoop_eq (ht : Tracks entries size spans shifts)
    (hread : ReadsIndex readEntry entries) (offset : ℕ) :
    ∀ gap low high, high - low = gap → high ≤ entries.length → low ≤ countStartingBy spans offset →
      countStartingBy spans offset ≤ high →
      scalarSearchLoop readEntry shifts offset low high = .ok (countStartingBy spans offset) := by
  intro gap
  induction gap using Nat.strong_induction_on with
  | _ gap ih =>
    intro low high hgap hhigh hlow hcount
    rw [scalarSearchLoop]
    by_cases hlt : low < high
    · rw [dif_pos hlt]
      obtain ⟨entry, span, hentry, hspan⟩ := ht.exists_entry (i := low + (high - low) / 2) (by omega)
      have hsplit := ht.layout.lt_countStartingBy_iff offset hspan
      simp only [hread hentry, ht.effectiveScalarStart_eq hentry hspan, bind, Except.bind]
      by_cases hstart : span.start ≤ offset
      · rw [if_pos hstart]
        exact ih _ (by omega) _ _ rfl hhigh (hsplit.mpr hstart) hcount
      · rw [if_neg hstart]
        exact ih _ (by omega) _ _ rfl (by omega) hlow (not_lt.mp (hsplit.not.mpr hstart))
    · rw [dif_neg hlt]
      congr 1
      omega

theorem Tracks.scalarSearchLoop_count (ht : Tracks entries size spans shifts)
    (hread : ReadsIndex readEntry entries) (offset : ℕ) :
    scalarSearchLoop readEntry shifts offset 0 entries.length = .ok (countStartingBy spans offset) :=
  ht.scalarSearchLoop_eq hread offset _ 0 _ rfl le_rfl (Nat.zero_le _)
    (ht.count_eq ▸ countStartingBy_le_length)

/-- An edit inside a scalar is located at the scalar it falls in, with its current span. -/
theorem Tracks.locateScalar_of_editedSpan (ht : Tracks entries size spans shifts)
    (hread : ReadsIndex readEntry entries) {offset deleteLen ordinal : ℕ}
    (hedited : editedSpan spans offset deleteLen = some ordinal) :
    ∃ entry span, entries[ordinal]? = some entry ∧ spans[ordinal]? = some span ∧
      span.Holds offset deleteLen ∧
      locateScalar readEntry shifts offset entries.length (offset + deleteLen) =
        .ok (some (ordinal, entry, span.start, span.length)) := by
  obtain ⟨span, hspan, hcount, hend⟩ := editedSpan_eq_some hedited
  have hstart := (ht.layout.lt_countStartingBy_iff offset hspan).mp (by omega)
  have hi : ordinal < entries.length := ht.count_eq ▸ (List.getElem?_eq_some_iff.mp hspan).1
  have hentry := List.getElem?_eq_getElem hi
  have hfits : span.start + span.length ≤ maxU64 := (ht.span_le hspan).trans maxU32_le_maxU64
  unfold Span.stop at hend
  refine ⟨_, span, hentry, hspan, ⟨hstart, hend⟩, ?_⟩
  simp only [locateScalar, bind, Except.bind, ht.scalarSearchLoop_count hread offset, hcount,
    Nat.add_eq_zero_iff, one_ne_zero, and_false, ↓reduceIte, add_tsub_cancel_right, hread hentry,
    ht.effectiveScalarStart_eq hentry hspan, ht.effectiveScalarLength_eq hentry hspan, gt_iff_lt,
    pure, Except.pure]
  rw [if_neg (not_lt.mpr hfits), if_neg (by omega)]

/-- An edit inside no scalar is located nowhere. -/
theorem Tracks.locateScalar_of_editedSpan_none (ht : Tracks entries size spans shifts)
    (hread : ReadsIndex readEntry entries) {offset deleteLen : ℕ}
    (hedited : editedSpan spans offset deleteLen = none) :
    locateScalar readEntry shifts offset entries.length (offset + deleteLen) = .ok none := by
  cases hcount : countStartingBy spans offset with
  | zero =>
    simp only [locateScalar, bind, Except.bind, ht.scalarSearchLoop_count hread offset, hcount,
      ↓reduceIte, pure, Except.pure]
  | succ count =>
    have hi : count < entries.length := by
      have hle : countStartingBy spans offset ≤ spans.length := countStartingBy_le_length
      have := ht.count_eq
      omega
    obtain ⟨entry, span, hentry, hspan⟩ := ht.exists_entry hi
    have hend : span.stop < offset + deleteLen := by
      unfold editedSpan at hedited
      rw [hcount] at hedited
      simpa [hspan] using hedited
    have hfits : span.start + span.length ≤ maxU64 := (ht.span_le hspan).trans maxU32_le_maxU64
    unfold Span.stop at hend
    simp only [locateScalar, bind, Except.bind, ht.scalarSearchLoop_count hread offset, hcount,
      Nat.add_eq_zero_iff, one_ne_zero, and_false, ↓reduceIte, add_tsub_cancel_right, hread hentry,
      ht.effectiveScalarStart_eq hentry hspan, ht.effectiveScalarLength_eq hentry hspan, gt_iff_lt,
      pure, Except.pure]
    rw [if_neg (not_lt.mpr hfits), if_pos (Or.inr hend)]

end Search

section Edit

variable {entries : List ScalarEntry} {size : ℕ} {spans : List Span} {shifts : List (ℕ × ℤ)}
  {ordinal offset deleteLen insertLen : ℕ}

/-- Merging the delta of an edit inside scalar `ordinal` into a tracking overlay succeeds, and
the overlay it leaves tracks the edited spans in the edited file, as long as that file fits in
`u32`. -/
theorem Tracks.edit (ht : Tracks entries size spans shifts)
    (hedited : editedSpan spans offset deleteLen = some ordinal)
    (hgrow : size + insertLen - deleteLen ≤ maxU32) (overflow : SdkError) :
    ∃ shifts', mergeShift overflow shifts ordinal ((insertLen : ℤ) - deleteLen) = .ok shifts' ∧
      Tracks entries (size + insertLen - deleteLen) (editSpans ordinal insertLen deleteLen spans)
        shifts' := by
  obtain ⟨edited, hspan, hholds, -⟩ := ht.layout.holds_of_editedSpan hedited
  have hi : ordinal < entries.length := ht.count_eq ▸ (List.getElem?_eq_some_iff.mp hspan).1
  have hentry := List.getElem?_eq_getElem hi
  have hstop := ht.layout.stop_le hspan
  have hstored := ht.entry_le hentry
  have hlength := ht.length_eq hentry hspan
  unfold Span.Holds Span.stop at hholds
  unfold Span.stop at hstop
  rw [ScalarEntry.stop_span] at hstored
  have hnew : ((edited.length + insertLen - deleteLen : ℕ) : ℤ) =
      entries[ordinal].length + (sumWhere (· = ordinal) shifts + ((insertLen : ℤ) - deleteLen)) := by
    omega
  obtain ⟨hlo, hhi⟩ := delta_bounds (by omega) (by omega) hnew
  obtain ⟨shifts', hmerge, hvalid, hsum⟩ :=
    mergeShift_spec overflow ht.valid (ht.count_lt.trans' hi) hlo hhi
  refine ⟨shifts', hmerge, ⟨hvalid, by simp [ht.count_eq], ht.count_lt, ht.stored_le,
    ht.layout.editSpans hspan ⟨hholds.1, hholds.2⟩, hgrow, ?_, ?_⟩⟩
  · intro i entry' span' hentry' hspan'
    obtain ⟨old, hold, rfl⟩ := exists_of_getElem?_editSpans hspan'
    rw [(ht.layout.editSpan_moves hspan ⟨hholds.1, hholds.2⟩ hold).1, ht.start_eq hentry' hold, hsum,
      add_assoc]
  · intro i entry' span' hentry' hspan'
    obtain ⟨old, hold, rfl⟩ := exists_of_getElem?_editSpans hspan'
    rw [(ht.layout.editSpan_moves hspan ⟨hholds.1, hholds.2⟩ hold).2, ht.length_eq hentry' hold, hsum,
      add_assoc]

end Edit

section SparseEdit

variable {ρ : Type} {readEntry : ℕ → Except SdkError ScalarEntry}
  (scalarChange : ℕ → ScalarEntry → ℕ → ℕ → Except SdkError (Option ρ))
  {entries : List ScalarEntry} {size : ℕ} {spans : List Span} {shifts : List (ℕ × ℤ)}
  {ordinal offset deleteLen insertLen : ℕ}

/-- `sparse_scalar_change` on an edit inside a scalar, from a tracking overlay: the document is
asked about that scalar at its current span, and the row change it makes comes back with an
overlay that tracks the edited spans. -/
theorem Tracks.sparseScalarChange_of_editedSpan (ht : Tracks entries size spans shifts)
    (hread : ReadsIndex readEntry entries) (hedited : editedSpan spans offset deleteLen = some ordinal)
    (hgrow : size + insertLen - deleteLen ≤ maxU32) :
    ∃ entry span shifts', entries[ordinal]? = some entry ∧ spans[ordinal]? = some span ∧
      span.Holds offset deleteLen ∧
      Tracks entries (size + insertLen - deleteLen) (editSpans ordinal insertLen deleteLen spans) shifts' ∧
      sparseScalarChange readEntry offset scalarChange entries.length (encodeScalarShifts shifts)
          deleteLen insertLen =
        (scalarChange ordinal entry span.start span.length).map
          (Option.map fun change => (change, encodeScalarShifts shifts')) := by
  obtain ⟨entry, span, hentry, hspan, hholds, hlocate⟩ := ht.locateScalar_of_editedSpan hread hedited
  obtain ⟨shifts', hmerge, ht'⟩ := ht.edit hedited hgrow (.invalidInput "JSON scalar shift overflowed")
  refine ⟨entry, span, shifts', hentry, hspan, hholds, ht', ?_⟩
  have hstop := ht.layout.stop_le hspan
  unfold Span.Holds Span.stop at hholds
  unfold Span.stop at hstop
  have hedit : offset + deleteLen ≤ maxU64 := by
    have := ht.size_le.trans maxU32_le_maxU64
    omega
  have hdelta : scalarDelta insertLen deleteLen = .ok ((insertLen : ℤ) - deleteLen) := by
    have hsize := ht.size_le
    unfold maxU32 at hgrow hsize
    exact scalarDelta_eq (by unfold maxI64; omega) (by unfold maxI64; omega)
  simp only [sparseScalarChange, bind, Except.bind, decodeScalarShifts_encodeScalarShifts ht.valid,
    gt_iff_lt, if_neg (not_lt.mpr hedit), hlocate]
  cases scalarChange ordinal entry span.start span.length with
  | error err => rfl
  | ok change =>
    cases change with
    | none => rfl
    | some change => simp [hdelta, hmerge, pure, Except.pure, Except.map]

/-- `sparse_scalar_change` on an edit inside no scalar, from a tracking overlay: it declines,
and the host takes the full path. -/
theorem Tracks.sparseScalarChange_of_editedSpan_none (ht : Tracks entries size spans shifts)
    (hread : ReadsIndex readEntry entries) (hedited : editedSpan spans offset deleteLen = none)
    (hedit : offset + deleteLen ≤ maxU64) :
    sparseScalarChange readEntry offset scalarChange entries.length (encodeScalarShifts shifts)
      deleteLen insertLen = .ok none := by
  simp only [sparseScalarChange, bind, Except.bind, decodeScalarShifts_encodeScalarShifts ht.valid,
    gt_iff_lt, if_neg (not_lt.mpr hedit), ht.locateScalar_of_editedSpan_none hread hedited]
  rfl

/-- One sparse edit that `sparse_scalar_change` takes, from a tracking overlay whose spans hold
the scalars: the overlay it returns tracks the spans the edit leaves, which hold the scalars'
bytes in the edited file. -/
theorem Tracks.sparseScalarChange_tracks {file : List UInt8} {scalars : List (List UInt8)}
    (ht : Tracks entries file.length spans shifts) (hlocates : Locates file spans scalars)
    (hread : ReadsIndex readEntry entries) {insert overlay' : List UInt8} {change : ρ}
    (hstep : sparseScalarChange readEntry offset scalarChange entries.length (encodeScalarShifts shifts)
      deleteLen insert.length = .ok (some (change, overlay')))
    (hsize : (spliceFrom file 0 [⟨offset, deleteLen, insert⟩]).length ≤ maxU32) :
    ∃ shifts', overlay' = encodeScalarShifts shifts' ∧
      Tracks entries (spliceFrom file 0 [⟨offset, deleteLen, insert⟩]).length
        (applyEdit spans offset deleteLen insert.length) shifts' ∧
      Locates (spliceFrom file 0 [⟨offset, deleteLen, insert⟩]) (applyEdit spans offset deleteLen insert.length)
        (applyEditParts spans scalars offset deleteLen insert) := by
  cases hedited : editedSpan spans offset deleteLen with
  | none =>
    exfalso
    by_cases hedit : offset + deleteLen ≤ maxU64
    · rw [ht.sparseScalarChange_of_editedSpan_none scalarChange hread hedited hedit] at hstep
      cases hstep
    · simp only [sparseScalarChange, bind, Except.bind, decodeScalarShifts_encodeScalarShifts ht.valid,
        gt_iff_lt, if_pos (not_le.mp hedit)] at hstep
      cases hstep
  | some ordinal =>
    obtain ⟨edited, hindex, hholds, -⟩ := ht.layout.holds_of_editedSpan hedited
    have hend : offset + deleteLen ≤ file.length := hholds.2.trans (ht.layout.stop_le hindex)
    have hlength : (spliceFrom file 0 [⟨offset, deleteLen, insert⟩]).length =
        file.length + insert.length - deleteLen := length_spliceFrom_single hend
    obtain ⟨entry, span, shifts', -, -, -, ht', hchange⟩ :=
      ht.sparseScalarChange_of_editedSpan scalarChange hread hedited (hlength ▸ hsize)
    rw [hchange] at hstep
    have hoverlay : overlay' = encodeScalarShifts shifts' := by
      cases hresult : scalarChange ordinal entry span.start span.length with
      | error err => rw [hresult] at hstep; cases hstep
      | ok result =>
        rw [hresult] at hstep
        cases result with
        | none => cases hstep
        | some change' =>
          simp only [Except.map, Option.map_some] at hstep
          cases hstep
          rfl
    refine ⟨shifts', hoverlay, ?_, hlocates.edit hedited⟩
    unfold applyEdit
    rw [hedited, hlength]
    exact ht'

end SparseEdit

end Lix.Json
