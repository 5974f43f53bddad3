import Lix.JsonScalarTracking

/-! The serialize path that writes existing scalars, `sparse_semantic_changes`, keeps the index
tracking. Each written row is matched to its scalar, whose whole span, as the overlay the batch
started from gives it, the document replaces; the deltas of the edits are merged into the
overlay. Applied by the host at once, sorted by offset, the edits are the single edits of
their spans one at a time from the last, so the spans move as a batch of whole-span splices
moves them, and the merged overlay moves the stored spans onto them. -/
namespace Lix.Json
open SortedMap ListWindow ListSpans ExceptSpec

/-- A JSON byte edit as a splice of the file. -/
def ByteEdit.toSplice (edit : ByteEdit) : Splice UInt8 := ⟨edit.offset, edit.deleteLen, edit.insert⟩

section Scan

variable {κ μ ρ : Type} [DecidableEq κ] {readEntry : ℕ → Except SdkError ScalarEntry}
  {readMetadata : ScalarEntry → Except SdkError (ArenaJsonScalar κ μ)}
  {readRange : ℕ → ℕ → Except SdkError (List UInt8)}
  {render : ArenaJsonScalar κ μ → List UInt8 → RowChange κ ρ → Except String (List UInt8)}
  {rowPkText : κ → String}

omit [DecidableEq κ] in
/-- The document's edit replaces the whole span its metadata gives. -/
theorem scalarEditFromArena_eq_some {metadata : ArenaJsonScalar κ μ} {current : List UInt8}
    {change : RowChange κ ρ} {edit : ByteEdit}
    (h : scalarEditFromArena render metadata current change = .ok (some edit)) :
    edit.offset = metadata.start ∧ edit.deleteLen = metadata.length := by
  obtain ⟨scalar, -, h⟩ := bind_eq_ok.mp h
  split_ifs at h
  · cases h
  · simp only [pure, Except.pure, Except.ok.injEq, Option.some.injEq] at h
    subst h
    exact ⟨rfl, rfl⟩

/-- The scan finds a scalar among the ordinals it reads, with the entry read there. -/
theorem findSemanticScalar_eq_some {change : RowChange κ ρ} :
    ∀ {ordinals : List ℕ} {ordinal : ℕ} {entry : ScalarEntry} {metadata : ArenaJsonScalar κ μ},
      findSemanticScalar readEntry readMetadata change ordinals = .ok (some (ordinal, entry, metadata)) →
      ordinal ∈ ordinals ∧ readEntry ordinal = .ok entry
  | [], _, _, _, h => by cases h
  | first :: rest, ordinal, entry, metadata, h => by
    rw [findSemanticScalar] at h
    obtain ⟨entry', hentry, h⟩ := bind_eq_ok.mp h
    obtain ⟨metadata', -, h⟩ := bind_eq_ok.mp h
    split_ifs at h
    · cases h
      exact ⟨List.mem_cons_self, hentry⟩
    · obtain ⟨hmem, hread⟩ := findSemanticScalar_eq_some h
      exact ⟨List.mem_cons_of_mem _ hmem, hread⟩

variable {entries : List ScalarEntry} {size : ℕ} {spans : List Span} {shifts : List (ℕ × ℤ)}

/-- Under a tracking overlay, the edit made for a change replaces the whole current span of the
scalar it writes. -/
theorem Tracks.semanticScalarEdit_eq_some (ht : Tracks entries size spans shifts)
    (hread : ReadsIndex readEntry entries) {change : RowChange κ ρ} {ordinal : ℕ} {edit : ByteEdit}
    (h : semanticScalarEdit readEntry readMetadata readRange render rowPkText entries.length shifts
      change = .ok (some (ordinal, edit))) :
    ∃ span, spans[ordinal]? = some span ∧ edit.offset = span.start ∧ edit.deleteLen = span.length := by
  unfold semanticScalarEdit at h
  obtain ⟨found, hfound, h⟩ := bind_eq_ok.mp h
  rcases found with _ | ⟨found, entry, metadata⟩
  · cases h
  obtain ⟨hmem, hentry⟩ := findSemanticScalar_eq_some hfound
  obtain ⟨entry', span, hentry', hspan⟩ := ht.exists_entry (List.mem_range.mp hmem)
  rw [hread hentry'] at hentry
  cases hentry
  obtain ⟨start, hstart, h⟩ := bind_eq_ok.mp h
  rw [ht.effectiveScalarStart_eq hentry' hspan] at hstart
  cases hstart
  obtain ⟨length, hlength, h⟩ := bind_eq_ok.mp h
  rw [ht.effectiveScalarLength_eq hentry' hspan] at hlength
  cases hlength
  simp only [gt_iff_lt] at h
  split_ifs at h
  · cases h
  · cases h
  · cases h
  · obtain ⟨current, -, h⟩ := bind_eq_ok.mp h
    split at h
    · cases h
    · cases h
    · rename_i edit' hedit
      cases h
      exact ⟨span, hspan, scalarEditFromArena_eq_some hedit⟩

end Scan

section Batch

/-- Where the loop of `sparse_semantic_changes` stands after some changes: each edit kept so far
replaces the whole current span of the scalar noted with it, and the overlay is a valid one
that adds their deltas to the overlay `base` the batch started from. -/
structure SemanticDone (spans : List Span) (base : List (ℕ × ℤ)) (pairs : List (ℕ × ByteEdit))
    (state : List (ℕ × ℤ) × List ByteEdit) : Prop where
  edits_eq : state.2 = pairs.map Prod.snd
  whole : ∀ pair ∈ pairs, ∃ span, spans[pair.1]? = some span ∧ pair.2.offset = span.start ∧
    pair.2.deleteLen = span.length
  valid : ShiftsValid state.1
  sum_eq : ∀ (p : ℕ → Prop) [DecidablePred p], sumWhere p state.1 =
    sumWhere p base + (pairs.map fun pair => if p pair.1 then spliceDelta pair.2.toSplice else 0).sum

variable {size : ℕ} {spans : List Span} {base : List (ℕ × ℤ)} {pairs : List (ℕ × ByteEdit)}
  {state : List (ℕ × ℤ) × List ByteEdit} {edits : List ByteEdit}

/-- The kept edits, in any order, replace whole non-empty spans. -/
theorem SemanticDone.replacesSpans (hdone : SemanticDone spans base pairs state)
    (hperm : edits.Perm (pairs.map Prod.snd)) (hpos : ∀ edit ∈ edits, 0 < edit.deleteLen) :
    ReplacesSpans spans (edits.map ByteEdit.toSplice) := fun splice hsplice => by
  obtain ⟨edit, hedit, rfl⟩ := List.mem_map.mp hsplice
  obtain ⟨pair, hpair, rfl⟩ := List.mem_map.mp (hperm.mem_iff.mp hedit)
  obtain ⟨span, hspan, hoffset, hdelete⟩ := hdone.whole pair hpair
  exact ⟨pair.1, span, hspan, hoffset, hdelete, hdelete ▸ hpos pair.2 hedit⟩

/-- What the kept edits add below a predicate of the span they replace is what the loop noted
for their scalars. -/
theorem SemanticDone.sum_splices (hdone : SemanticDone spans base pairs state)
    (hlayout : Layout size spans) (hperm : edits.Perm (pairs.map Prod.snd))
    (hpos : ∀ edit ∈ edits, 0 < edit.deleteLen) (p : ℕ → Prop) [DecidablePred p] :
    ((edits.map ByteEdit.toSplice).map fun s => if p (spliceIndex spans s) then spliceDelta s else 0).sum =
      (pairs.map fun pair => if p pair.1 then spliceDelta pair.2.toSplice else 0).sum := by
  rw [List.map_map, (hperm.map _).sum_eq, List.map_map]
  refine congrArg List.sum (List.map_congr_left fun pair hpair => ?_)
  obtain ⟨span, hspan, hoffset, hdelete⟩ := hdone.whole pair hpair
  have hpos' := hpos pair.2 (hperm.mem_iff.mpr (List.mem_map_of_mem hpair))
  have hindex : spliceIndex spans pair.2.toSplice = pair.1 :=
    hlayout.spliceIndex_eq hspan (hdelete ▸ hpos') hoffset
  simp only [Function.comp_apply, hindex]

end Batch

section Loop

variable {κ μ ρ : Type} [DecidableEq κ] {readEntry : ℕ → Except SdkError ScalarEntry}
  {readMetadata : ScalarEntry → Except SdkError (ArenaJsonScalar κ μ)}
  {readRange : ℕ → ℕ → Except SdkError (List UInt8)}
  {render : ArenaJsonScalar κ μ → List UInt8 → RowChange κ ρ → Except String (List UInt8)}
  {rowPkText : κ → String}

variable {entries : List ScalarEntry} {size : ℕ} {spans : List Span} {shifts : List (ℕ × ℤ)}

/-- One change of the loop, from a tracking overlay: a kept edit is noted with its scalar and
its delta merged. -/
theorem Tracks.semanticStep_done (ht : Tracks entries size spans shifts)
    (hread : ReadsIndex readEntry entries) {pairs : List (ℕ × ByteEdit)}
    {state state' : List (ℕ × ℤ) × List ByteEdit} {change : RowChange κ ρ}
    (hdone : SemanticDone spans shifts pairs state)
    (h : semanticStep readEntry readMetadata readRange render rowPkText entries.length shifts state
      change = .ok state') :
    ∃ pairs', SemanticDone spans shifts pairs' state' := by
  unfold semanticStep at h
  obtain ⟨found, hfound, h⟩ := bind_eq_ok.mp h
  rcases found with _ | ⟨ordinal, edit⟩
  · cases h
    exact ⟨pairs, hdone⟩
  obtain ⟨span, hspan, hoffset, hdelete⟩ := ht.semanticScalarEdit_eq_some hread hfound
  simp only [gt_iff_lt] at h
  split_ifs at h with hinsert _ hdeleted
  · cases h
  · cases h
  · cases h
  obtain ⟨shifts', hmerge, h⟩ := bind_eq_ok.mp h
  cases h
  have hordinal : ordinal < 2 ^ 32 :=
    lt_of_lt_of_le (ht.count_eq ▸ (List.getElem?_eq_some_iff.mp hspan).1) ht.count_lt.le
  have hlo : minI64 ≤ (edit.insert.length : ℤ) - edit.deleteLen := by
    unfold maxI64 at hdeleted
    unfold minI64
    omega
  have hhi : (edit.insert.length : ℤ) - edit.deleteLen ≤ maxI64 := by omega
  obtain ⟨hvalid, hsum⟩ := mergeShift_eq_ok _ hdone.valid hordinal hlo hhi hmerge
  refine ⟨pairs ++ [(ordinal, edit)], ⟨by simp [hdone.edits_eq], fun pair hpair => ?_, hvalid,
    fun p _ => ?_⟩⟩
  · rcases List.mem_append.mp hpair with hpair | hpair
    · exact hdone.whole pair hpair
    · rw [List.mem_singleton.mp hpair]
      exact ⟨span, hspan, hoffset, hdelete⟩
  · rw [hsum, hdone.sum_eq, List.map_append, List.sum_append, List.map_singleton, List.sum_singleton,
      add_assoc]
    rfl

/-- The whole loop, from a tracking overlay. -/
theorem Tracks.foldlM_semanticStep (ht : Tracks entries size spans shifts)
    (hread : ReadsIndex readEntry entries) {changes : List (RowChange κ ρ)}
    {result : List (ℕ × ℤ) × List ByteEdit}
    (h : changes.foldlM (semanticStep readEntry readMetadata readRange render rowPkText entries.length
      shifts) (shifts, []) = .ok result) :
    ∃ pairs, SemanticDone spans shifts pairs result := by
  let P : List (RowChange κ ρ) → List (ℕ × ℤ) × List ByteEdit → Prop :=
    fun _ state => ∃ pairs, SemanticDone spans shifts pairs state
  have hstart : P [] (shifts, []) := ⟨[], ⟨rfl, by simp, ht.valid, fun p _ => by simp⟩⟩
  exact @foldlM_invariant _ _ _ _ P
    (fun _ _ _ _ hdone hstep => hdone.elim fun _ hdone => ht.semanticStep_done hread hdone hstep)
    changes [] _ _ hstart h

/-- A batch that succeeds, from a tracking overlay: its edits are, in some order, those the loop
kept, and its overlay the one the loop merged. -/
theorem Tracks.sparseSemanticChanges_eq_some (ht : Tracks entries size spans shifts)
    (hread : ReadsIndex readEntry entries) {changes : List (RowChange κ ρ)} {edits : List ByteEdit}
    {shifts' : List (ℕ × ℤ)}
    (h : sparseSemanticChanges readEntry readMetadata readRange render rowPkText entries.length
      (encodeScalarShifts shifts) changes = .ok (some (edits, shifts'))) :
    ∃ pairs, SemanticDone spans shifts pairs (shifts', pairs.map Prod.snd) ∧
      edits.Perm (pairs.map Prod.snd) := by
  unfold sparseSemanticChanges at h
  obtain ⟨decoded, hdecoded, h⟩ := bind_eq_ok.mp h
  rw [decodeScalarShifts_encodeScalarShifts ht.valid] at hdecoded
  cases hdecoded
  obtain ⟨⟨merged, kept⟩, hfold, h⟩ := bind_eq_ok.mp h
  obtain ⟨pairs, hdone⟩ := ht.foldlM_semanticStep hread hfold
  simp only [pure, Except.pure, Except.ok.injEq, Option.some.injEq, Prod.mk.injEq] at h
  obtain ⟨rfl, rfl⟩ := h
  have hkept : kept = pairs.map Prod.snd := hdone.edits_eq
  subst hkept
  exact ⟨pairs, hdone, List.mergeSort_perm _ _⟩

/-- A batch of edits that succeeds and that the host takes (offsets strictly increasing, each
deleting the bytes of a scalar) leaves the merged overlay tracking the spans the batch leaves in
the edited file, with each scalar's written bytes at its new span. -/
theorem Tracks.sparseSemanticChanges_tracks {file : List UInt8} {scalars : List (List UInt8)}
    (ht : Tracks entries file.length spans shifts) (hlocates : Locates file spans scalars)
    (hread : ReadsIndex readEntry entries) {changes : List (RowChange κ ρ)} {edits : List ByteEdit}
    {shifts' : List (ℕ × ℤ)}
    (h : sparseSemanticChanges readEntry readMetadata readRange render rowPkText entries.length
      (encodeScalarShifts shifts) changes = .ok (some (edits, shifts')))
    (hsorted : edits.Pairwise fun a b => a.offset < b.offset) (hpos : ∀ edit ∈ edits, 0 < edit.deleteLen)
    (hsize : (spliceFrom file 0 (edits.map ByteEdit.toSplice)).length ≤ maxU32) :
    Tracks entries (spliceFrom file 0 (edits.map ByteEdit.toSplice)).length
        (applySplices (edits.map ByteEdit.toSplice) (spans, scalars)).1 shifts' ∧
      Locates (spliceFrom file 0 (edits.map ByteEdit.toSplice))
        (applySplices (edits.map ByteEdit.toSplice) (spans, scalars)).1
        (applySplices (edits.map ByteEdit.toSplice) (spans, scalars)).2 := by
  obtain ⟨pairs, hdone, hperm⟩ := ht.sparseSemanticChanges_eq_some hread h
  have hsorted' : (edits.map ByteEdit.toSplice).Pairwise fun a b => a.offset < b.offset :=
    List.pairwise_map.mpr hsorted
  obtain ⟨hlocates', hmoved⟩ := hlocates.batch hsorted' (hdone.replacesSpans hperm hpos)
  have hsum := hdone.sum_splices ht.layout hperm hpos
  have hold : ∀ {i : ℕ} {span' : Span},
      (applySplices (edits.map ByteEdit.toSplice) (spans, scalars)).1[i]? = some span' →
      ∃ span, spans[i]? = some span ∧ (span'.start : ℤ) = span.start +
          (pairs.map fun pair => if pair.1 < i then spliceDelta pair.2.toSplice else 0).sum ∧
        (span'.length : ℤ) = span.length +
          (pairs.map fun pair => if pair.1 = i then spliceDelta pair.2.toSplice else 0).sum := by
    intro i span' hspan'
    have hi : i < spans.length := by
      rw [← length_applySplices (edits.map ByteEdit.toSplice) (spans, scalars)]
      exact (List.getElem?_eq_some_iff.mp hspan').1
    obtain ⟨span'', hspan'', hstart, hlength⟩ := hmoved (List.getElem?_eq_getElem hi)
    rw [hspan', Option.some_inj] at hspan''
    subst hspan''
    exact ⟨_, List.getElem?_eq_getElem hi, hsum (· < i) ▸ hstart, hsum (· = i) ▸ hlength⟩
  refine ⟨⟨hdone.valid, by rw [length_applySplices]; exact ht.count_eq, ht.count_lt, ht.stored_le,
    hlocates'.layout, hsize, fun hentry hspan' => ?_, fun hentry hspan' => ?_⟩, hlocates'⟩
  · obtain ⟨span, hspan, hstart, -⟩ := hold hspan'
    rw [hstart, ht.start_eq hentry hspan, hdone.sum_eq, add_assoc]
  · obtain ⟨span, hspan, -, hlength⟩ := hold hspan'
    rw [hlength, ht.length_eq hentry hspan, hdone.sum_eq, add_assoc]

end Loop

end Lix.Json
