import Lix.JsonSemanticTracking

/-! Runs of the JSON plugin's sparse paths from a full parse. The parse stores the spans of the
file's scalars and no overlay; the host then hands the plugin edits of the file, which
`sparse_scalar_change` takes when they lie inside one scalar, and the plugin writes rows back
through `sparse_semantic_changes`, whose edits the host applies to the file at once. Either way
the stored overlay keeps tracking the scalars' spans in the current file, so the effective
starts and lengths the plugin reads are where the scalars' bytes are. -/
namespace Lix.Json
open ListWindow ListSpans

section Reads

variable {entries : List ScalarEntry} {file : List UInt8} {spans : List Span} {shifts : List (ℕ × ℤ)}
  {scalars : List (List UInt8)}

/-- What a tracking overlay gives the plugin: it reads back, and under it the effective start
and length of each scalar are the span that holds its bytes. -/
theorem Tracks.reads_spans (ht : Tracks entries file.length spans shifts)
    (hlocates : Locates file spans scalars) :
    decodeScalarShifts (encodeScalarShifts shifts) = .ok shifts ∧ spans.length = entries.length ∧
      Layout file.length spans ∧
      ∀ i entry span, entries[i]? = some entry → spans[i]? = some span →
        effectiveScalarStart entry.start i shifts = .ok span.start ∧
        effectiveScalarLength entry.length i shifts = .ok span.length ∧
        ∀ scalar, scalars[i]? = some scalar → window file span.start span.stop = scalar :=
  ⟨decodeScalarShifts_encodeScalarShifts ht.valid, ht.count_eq, ht.layout,
    fun _ _ _ hentry hspan => ⟨ht.effectiveScalarStart_eq hentry hspan,
      ht.effectiveScalarLength_eq hentry hspan, fun _ hscalar => hlocates.window_eq hspan hscalar⟩⟩

end Reads

section Run

variable {ρ : Type} (readEntry : ℕ → Except SdkError ScalarEntry)
  (scalarChange : ℕ → ScalarEntry → ℕ → ℕ → Except SdkError (Option ρ)) (entries : List ScalarEntry)

/-- What runs of sparse edits reach from a full parse: the file, the stored overlay, and, as
the edits leave them, the scalars' spans and bytes. The parse stores the spans of the file's
scalars, in order within the file, and no overlay. Each later edit is one that
`sparse_scalar_change` takes: the file takes the edit, the returned overlay is stored, and the
scalar the edit falls in takes it while the later ones move. The host keeps files within `u32`. -/
inductive SparseRun : List UInt8 → List UInt8 → List Span → List (List UInt8) → Prop
  | parsed {file : List UInt8} : entries.length < 2 ^ 32 →
      Layout file.length (entries.map ScalarEntry.span) → file.length ≤ maxU32 →
      SparseRun file [] (entries.map ScalarEntry.span)
        ((entries.map ScalarEntry.span).map fun span => window file span.start span.stop)
  | edit {file overlay overlay' : List UInt8} {spans : List Span} {scalars : List (List UInt8)}
      {offset deleteLen : ℕ} {insert : List UInt8} {change : ρ} :
      SparseRun file overlay spans scalars →
      sparseScalarChange readEntry offset scalarChange entries.length overlay deleteLen insert.length =
        .ok (some (change, overlay')) →
      (spliceFrom file 0 [⟨offset, deleteLen, insert⟩]).length ≤ maxU32 →
      SparseRun (spliceFrom file 0 [⟨offset, deleteLen, insert⟩]) overlay'
        (applyEdit spans offset deleteLen insert.length) (applyEditParts spans scalars offset deleteLen insert)

variable {readEntry scalarChange entries}

/-- Every state a run of sparse edits reaches: the stored overlay is a valid one that tracks the
scalars' spans in the current file, and those spans hold the scalars' bytes. -/
theorem SparseRun.tracks (hread : ReadsIndex readEntry entries) {file overlay : List UInt8}
    {spans : List Span} {scalars : List (List UInt8)}
    (hrun : SparseRun readEntry scalarChange entries file overlay spans scalars) :
    ∃ shifts, overlay = encodeScalarShifts shifts ∧ Tracks entries file.length spans shifts ∧
      Locates file spans scalars := by
  induction hrun with
  | parsed hcount hlayout hsize =>
    exact ⟨[], rfl, tracks_parsed hcount hlayout hsize, hlayout.locates⟩
  | edit _ hstep hsize ih =>
    obtain ⟨shifts, rfl, ht, hlocates⟩ := ih
    exact ht.sparseScalarChange_tracks scalarChange hlocates hread hstep hsize

/-- After any run of sparse edits from a full parse, the stored overlay reads back, and under it
every scalar's effective start and length, as `sparse_scalar_change` reads them, give the span
that holds the scalar's bytes in the current file, the spans in order within it. -/
theorem SparseRun.effective_spans (hread : ReadsIndex readEntry entries) {file overlay : List UInt8}
    {spans : List Span} {scalars : List (List UInt8)}
    (hrun : SparseRun readEntry scalarChange entries file overlay spans scalars) :
    ∃ shifts, decodeScalarShifts overlay = .ok shifts ∧ spans.length = entries.length ∧
      Layout file.length spans ∧
      ∀ i entry span, entries[i]? = some entry → spans[i]? = some span →
        effectiveScalarStart entry.start i shifts = .ok span.start ∧
        effectiveScalarLength entry.length i shifts = .ok span.length ∧
        ∀ scalar, scalars[i]? = some scalar → window file span.start span.stop = scalar := by
  obtain ⟨shifts, rfl, ht, hlocates⟩ := hrun.tracks hread
  exact ⟨shifts, ht.reads_spans hlocates⟩

/-- A one-scalar index: the scalar `"ab"` at bytes one to four of `[ab]`. -/
def sampleEntries : List ScalarEntry := [⟨1, 4, 0, 0, 0⟩]

def sampleFile : List UInt8 := [91, 34, 97, 98, 34, 93]

def readSample (i : ℕ) : Except SdkError ScalarEntry :=
  match sampleEntries[i]? with
  | some entry => .ok entry
  | none => .error (.invalidInput "JSON scalar index disappeared")

theorem readsIndex_sample : ReadsIndex readSample sampleEntries := fun hentry => by
  simp [readSample, hentry]

theorem layout_sample : Layout sampleFile.length (sampleEntries.map ScalarEntry.span) :=
  ⟨by decide, by decide⟩

/-- The file after the host replaces the `a` of the scalar by `cd`: `["cdb"]`. -/
def sampleEditedFile : List UInt8 := spliceFrom sampleFile 0 [⟨2, 1, [99, 100]⟩]

/-- The overlay `sparse_scalar_change` stores for that edit: scalar 0 grows by one byte. -/
def sampleOverlay : List UInt8 := [0, 0, 0, 0, 1, 0, 0, 0, 0, 0, 0, 0]

def sampleSpans : List Span := applyEdit (sampleEntries.map ScalarEntry.span) 2 1 2

def sampleScalars : List (List UInt8) :=
  applyEditParts (sampleEntries.map ScalarEntry.span)
    ((sampleEntries.map ScalarEntry.span).map fun span => window sampleFile span.start span.stop) 2 1
    [99, 100]

theorem sparseScalarChange_sample :
    sparseScalarChange readSample 2 (fun _ _ _ _ => (.ok (some ()) : Except SdkError (Option Unit)))
      sampleEntries.length [] 1 2 = .ok (some ((), sampleOverlay)) := by
  decide +kernel

theorem effective_spans_sample :
    ReadsIndex readSample sampleEntries ∧
      SparseRun readSample (fun _ _ _ _ => .ok (some ())) sampleEntries sampleEditedFile sampleOverlay
        sampleSpans sampleScalars ∧
      ∃ shifts, decodeScalarShifts sampleOverlay = .ok shifts ∧
        sampleSpans.length = sampleEntries.length ∧ Layout sampleEditedFile.length sampleSpans ∧
        ∀ i entry span, sampleEntries[i]? = some entry → sampleSpans[i]? = some span →
          effectiveScalarStart entry.start i shifts = .ok span.start ∧
          effectiveScalarLength entry.length i shifts = .ok span.length ∧
          ∀ scalar, sampleScalars[i]? = some scalar →
            window sampleEditedFile span.start span.stop = scalar :=
  have hparsed : SparseRun readSample (fun _ _ _ _ => .ok (some ())) sampleEntries sampleFile []
      (sampleEntries.map ScalarEntry.span)
      ((sampleEntries.map ScalarEntry.span).map fun span => window sampleFile span.start span.stop) :=
    .parsed (by decide) layout_sample (by decide)
  have hrun : SparseRun readSample (fun _ _ _ _ => .ok (some ())) sampleEntries sampleEditedFile
      sampleOverlay sampleSpans sampleScalars :=
    .edit hparsed sparseScalarChange_sample (by decide)
  ⟨readsIndex_sample, hrun, SparseRun.effective_spans readsIndex_sample hrun⟩

end Run

section IndexRun

variable {κ μ ρ σ : Type} [DecidableEq κ] (readEntry : ℕ → Except SdkError ScalarEntry)
  (scalarChange : ℕ → ScalarEntry → ℕ → ℕ → Except SdkError (Option σ))
  (readMetadata : ScalarEntry → Except SdkError (ArenaJsonScalar κ μ))
  (readRange : ℕ → ℕ → Except SdkError (List UInt8))
  (render : ArenaJsonScalar κ μ → List UInt8 → RowChange κ ρ → Except String (List UInt8))
  (rowPkText : κ → String) (entries : List ScalarEntry)

/-- What runs of both sparse paths reach from a full parse. Besides the parse and the sparse
edits of `SparseRun`, a state takes the writes of `sparse_semantic_changes`: its edits, which
the host accepts only at strictly increasing offsets, are applied to the file at once, and the
overlay it returns is stored. Each edit deletes a scalar's bytes, never none of them. -/
inductive IndexRun : List UInt8 → List UInt8 → List Span → List (List UInt8) → Prop
  | parsed {file : List UInt8} : entries.length < 2 ^ 32 →
      Layout file.length (entries.map ScalarEntry.span) → file.length ≤ maxU32 →
      IndexRun file [] (entries.map ScalarEntry.span)
        ((entries.map ScalarEntry.span).map fun span => window file span.start span.stop)
  | edit {file overlay overlay' : List UInt8} {spans : List Span} {scalars : List (List UInt8)}
      {offset deleteLen : ℕ} {insert : List UInt8} {change : σ} :
      IndexRun file overlay spans scalars →
      sparseScalarChange readEntry offset scalarChange entries.length overlay deleteLen insert.length =
        .ok (some (change, overlay')) →
      (spliceFrom file 0 [⟨offset, deleteLen, insert⟩]).length ≤ maxU32 →
      IndexRun (spliceFrom file 0 [⟨offset, deleteLen, insert⟩]) overlay'
        (applyEdit spans offset deleteLen insert.length) (applyEditParts spans scalars offset deleteLen insert)
  | semantic {file overlay : List UInt8} {spans : List Span} {scalars : List (List UInt8)}
      {changes : List (RowChange κ ρ)} {edits : List ByteEdit} {shifts' : List (ℕ × ℤ)} :
      IndexRun file overlay spans scalars →
      sparseSemanticChanges readEntry readMetadata readRange render rowPkText entries.length overlay
        changes = .ok (some (edits, shifts')) →
      edits.Pairwise (fun a b => a.offset < b.offset) → (∀ edit ∈ edits, 0 < edit.deleteLen) →
      (spliceFrom file 0 (edits.map ByteEdit.toSplice)).length ≤ maxU32 →
      IndexRun (spliceFrom file 0 (edits.map ByteEdit.toSplice)) (encodeScalarShifts shifts')
        (applySplices (edits.map ByteEdit.toSplice) (spans, scalars)).1
        (applySplices (edits.map ByteEdit.toSplice) (spans, scalars)).2

variable {readEntry scalarChange readMetadata readRange render rowPkText entries}

/-- Every state a run of both sparse paths reaches: the stored overlay is a valid one that
tracks the scalars' spans in the current file, and those spans hold the scalars' bytes. -/
theorem IndexRun.tracks (hread : ReadsIndex readEntry entries) {file overlay : List UInt8}
    {spans : List Span} {scalars : List (List UInt8)}
    (hrun : IndexRun readEntry scalarChange readMetadata readRange render rowPkText entries file overlay
      spans scalars) :
    ∃ shifts, overlay = encodeScalarShifts shifts ∧ Tracks entries file.length spans shifts ∧
      Locates file spans scalars := by
  induction hrun with
  | parsed hcount hlayout hsize =>
    exact ⟨[], rfl, tracks_parsed hcount hlayout hsize, hlayout.locates⟩
  | edit _ hstep hsize ih =>
    obtain ⟨shifts, rfl, ht, hlocates⟩ := ih
    exact ht.sparseScalarChange_tracks scalarChange hlocates hread hstep hsize
  | @semantic _ _ _ _ _ _ shifts' _ hchanges hsorted hpos hsize ih =>
    obtain ⟨shifts, rfl, ht, hlocates⟩ := ih
    exact ⟨shifts', rfl, ht.sparseSemanticChanges_tracks hlocates hread hchanges hsorted hpos hsize⟩

/-- After any run of both sparse paths from a full parse, the stored overlay reads back, and
under it every scalar's effective start and length give the span that holds the scalar's bytes
in the current file, the spans in order within it. -/
theorem IndexRun.tracked_spans (hread : ReadsIndex readEntry entries) {file overlay : List UInt8}
    {spans : List Span} {scalars : List (List UInt8)}
    (hrun : IndexRun readEntry scalarChange readMetadata readRange render rowPkText entries file overlay
      spans scalars) :
    ∃ shifts, decodeScalarShifts overlay = .ok shifts ∧ spans.length = entries.length ∧
      Layout file.length spans ∧
      ∀ i entry span, entries[i]? = some entry → spans[i]? = some span →
        effectiveScalarStart entry.start i shifts = .ok span.start ∧
        effectiveScalarLength entry.length i shifts = .ok span.length ∧
        ∀ scalar, scalars[i]? = some scalar → window file span.start span.stop = scalar := by
  obtain ⟨shifts, rfl, ht, hlocates⟩ := hrun.tracks hread
  exact ⟨shifts, ht.reads_spans hlocates⟩

/-- The sample scalar's metadata: an array item with no key to speak of. -/
def sampleMetadata (entry : ScalarEntry) : Except SdkError (ArenaJsonScalar Unit Unit) :=
  .ok ⟨entry.start, entry.length, .array, (), ()⟩

def sampleRange (start length : ℕ) : Except SdkError (List UInt8) :=
  .ok (window sampleFile start (start + length))

/-- A write of the sample scalar's row that sets it to `"c"`, rendered as the row's bytes. -/
def sampleWrite : RowChange Unit (List UInt8) := ⟨arrayItemSchemaKey, (), [34, 99, 34]⟩

def sampleRender (_ : ArenaJsonScalar Unit Unit) (_ : List UInt8) (change : RowChange Unit (List UInt8)) :
    Except String (List UInt8) :=
  .ok change.row

def sampleEdits : List ByteEdit := [⟨1, 4, [34, 99, 34]⟩]

def sampleParsed : List Span × List (List UInt8) :=
  (sampleEntries.map ScalarEntry.span,
    (sampleEntries.map ScalarEntry.span).map fun span => window sampleFile span.start span.stop)

theorem tracked_spans_sample :
    ReadsIndex readSample sampleEntries ∧
      IndexRun readSample (fun _ _ _ _ => .ok (some ())) sampleMetadata sampleRange sampleRender
        (fun _ => "") sampleEntries (spliceFrom sampleFile 0 (sampleEdits.map ByteEdit.toSplice))
        (encodeScalarShifts [(0, -1)]) (applySplices (sampleEdits.map ByteEdit.toSplice) sampleParsed).1
        (applySplices (sampleEdits.map ByteEdit.toSplice) sampleParsed).2 ∧
      ∃ shifts, decodeScalarShifts (encodeScalarShifts [(0, -1)]) = .ok shifts ∧
        (applySplices (sampleEdits.map ByteEdit.toSplice) sampleParsed).1.length = sampleEntries.length ∧
        Layout (spliceFrom sampleFile 0 (sampleEdits.map ByteEdit.toSplice)).length
          (applySplices (sampleEdits.map ByteEdit.toSplice) sampleParsed).1 ∧
        ∀ i entry span, sampleEntries[i]? = some entry →
          (applySplices (sampleEdits.map ByteEdit.toSplice) sampleParsed).1[i]? = some span →
          effectiveScalarStart entry.start i shifts = .ok span.start ∧
          effectiveScalarLength entry.length i shifts = .ok span.length ∧
          ∀ scalar, (applySplices (sampleEdits.map ByteEdit.toSplice) sampleParsed).2[i]? = some scalar →
            window (spliceFrom sampleFile 0 (sampleEdits.map ByteEdit.toSplice)) span.start span.stop =
              scalar :=
  have hparsed : IndexRun readSample (fun _ _ _ _ => .ok (some ())) sampleMetadata sampleRange sampleRender
      (fun _ => "") sampleEntries sampleFile [] sampleParsed.1 sampleParsed.2 :=
    .parsed (by decide) layout_sample (by decide)
  have hbatch : sparseSemanticChanges readSample sampleMetadata sampleRange sampleRender (fun _ => "")
      sampleEntries.length [] [sampleWrite] = .ok (some (sampleEdits, [(0, -1)])) := by
    decide +kernel
  have hrun := IndexRun.semantic hparsed hbatch (List.pairwise_singleton _ _) (by decide) (by decide)
  ⟨readsIndex_sample, hrun, IndexRun.tracked_spans readsIndex_sample hrun⟩

end IndexRun

end Lix.Json
