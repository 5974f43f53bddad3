import Lix.TextDocument

/-! What the text documents are. `split_lines` cuts bytes into the unique list of line segments
whose concatenation they are (`LineSegments`); a well-formed document holds exactly those
segments as its lines, under increasing order keys and distinct ids. `open_file` builds a
well-formed document and a well-formed document reopens from its bytes and identities.
`from_lines` keeps the rest of the invariant but not the segmentation: the document it builds
is well formed exactly when every line but the last ends in LF, which nothing checks. -/
namespace Lix.Text
open ExceptSpec

section Segments

/-- Segments as `split_lines` cuts them: a segment is LF-free bytes followed by one LF, except
that the last may be non-empty LF-free bytes. -/
inductive LineSegments : List (List UInt8) → Prop
  | nil : LineSegments []
  | last {segment : List UInt8} (hne : segment ≠ []) (hlf : lf ∉ segment) : LineSegments [segment]
  | cons {segment : List UInt8} {rest : List (List UInt8)} (hlf : lf ∉ segment)
      (hrest : LineSegments rest) : LineSegments ((segment ++ [lf]) :: rest)

theorem splitLinesFrom_append {xs : List UInt8} (h : lf ∉ xs) (current rest : List UInt8) :
    splitLinesFrom current (xs ++ rest) = splitLinesFrom (current ++ xs) rest := by
  induction xs generalizing current with
  | nil => simp
  | cons x xs ih =>
    have hx : x ≠ lf := fun e => h (e ▸ List.mem_cons_self ..)
    rw [List.cons_append, splitLinesFrom, if_neg hx, ih (fun m => h (List.mem_cons_of_mem _ m))]
    simp

theorem flatten_splitLinesFrom (current bytes : List UInt8) :
    (splitLinesFrom current bytes).flatten = current ++ bytes := by
  induction bytes generalizing current with
  | nil =>
    rw [splitLinesFrom]
    split_ifs with h <;> simp [h]
  | cons byte rest ih =>
    rw [splitLinesFrom]
    split_ifs with h
    · rw [List.flatten_cons, ih]
      simp
    · rw [ih]
      simp

@[simp] theorem flatten_splitLines (bytes : List UInt8) : (splitLines bytes).flatten = bytes :=
  flatten_splitLinesFrom [] bytes

theorem lineSegments_splitLinesFrom {current : List UInt8} (hc : lf ∉ current)
    (bytes : List UInt8) : LineSegments (splitLinesFrom current bytes) := by
  induction bytes generalizing current with
  | nil =>
    rw [splitLinesFrom]
    split_ifs with h
    · exact .nil
    · exact .last h hc
  | cons byte rest ih =>
    rw [splitLinesFrom]
    split_ifs with h
    · subst h
      exact .cons hc (ih List.not_mem_nil)
    · exact ih (by simp [hc, Ne.symm h])

theorem lineSegments_splitLines (bytes : List UInt8) : LineSegments (splitLines bytes) :=
  lineSegments_splitLinesFrom List.not_mem_nil bytes

/-- Line segments are what `split_lines` cuts their concatenation into. -/
theorem splitLines_flatten {segments : List (List UInt8)} (h : LineSegments segments) :
    splitLines segments.flatten = segments := by
  induction h with
  | nil => rfl
  | @last segment hne hlf =>
    have hsplit := splitLinesFrom_append hlf [] []
    rw [List.append_nil, List.nil_append] at hsplit
    rw [List.flatten_singleton, splitLines, hsplit, splitLinesFrom, if_neg hne]
  | @cons segment rest hlf hrest ih =>
    rw [List.flatten_cons, List.append_assoc, splitLines, splitLinesFrom_append hlf,
      List.nil_append, List.singleton_append, splitLinesFrom, if_pos rfl]
    exact congrArg _ ih

theorem validateLineBytes_eq_ok {bytes : List UInt8} :
    validateLineBytes bytes = .ok () ↔ bytes ≠ [] ∧ lf ∉ bytes.dropLast := by
  unfold validateLineBytes
  split_ifs with h1 h2 <;> simp_all

theorem LineSegments.validateLineBytes {segments : List (List UInt8)} (h : LineSegments segments) :
    ∀ segment ∈ segments, validateLineBytes segment = .ok () := by
  induction h with
  | nil => simp
  | @last segment hne hlf =>
    intro s hs
    rw [List.mem_singleton.mp hs, validateLineBytes_eq_ok]
    exact ⟨hne, fun hm => hlf (List.dropLast_subset _ hm)⟩
  | @cons segment rest hlf hrest ih =>
    intro s hs
    rcases List.mem_cons.mp hs with rfl | hs
    · rw [validateLineBytes_eq_ok, List.dropLast_concat]
      exact ⟨by simp, hlf⟩
    · exact ih s hs

/-- Every segment but the last ends in LF. -/
theorem LineSegments.getLast?_of_mem_dropLast {segments : List (List UInt8)}
    (h : LineSegments segments) : ∀ segment ∈ segments.dropLast, segment.getLast? = some lf := by
  induction h with
  | nil => simp
  | last => simp
  | @cons segment rest hlf hrest ih =>
    intro s hs
    by_cases hr : rest = []
    · subst hr
      simp at hs
    · rw [List.dropLast_cons_of_ne_nil hr] at hs
      rcases List.mem_cons.mp hs with rfl | hs
      · exact List.getLast?_concat
      · exact ih s hs

/-- Valid line bytes that all end in LF but perhaps the last are line segments. -/
theorem lineSegments_of_valid {segments : List (List UInt8)}
    (hvalid : ∀ s ∈ segments, validateLineBytes s = .ok ())
    (hend : ∀ s ∈ segments.dropLast, s.getLast? = some lf) : LineSegments segments := by
  induction segments with
  | nil => exact .nil
  | cons s rest ih =>
    obtain ⟨hne, hdrop⟩ := validateLineBytes_eq_ok.mp (hvalid s (List.mem_cons_self ..))
    have hrest : LineSegments rest := ih (fun t ht => hvalid t (List.mem_cons_of_mem _ ht))
      (fun t ht => by
        rcases rest with _ | ⟨r, rs⟩
        · simp at ht
        · rw [List.dropLast_cons_of_ne_nil (List.cons_ne_nil r rs)] at hend
          exact hend t (List.mem_cons_of_mem _ ht))
    have hcons : s.getLast? = some lf → LineSegments (s :: rest) := by
      intro hlast
      have hs := List.dropLast_append_getLast? lf hlast
      rw [← hs]
      exact .cons hdrop hrest
    by_cases hr : rest = []
    · subst hr
      by_cases hlast : s.getLast? = some lf
      · exact hcons hlast
      · refine .last hne fun hm => ?_
        rw [← List.dropLast_concat_getLast hne, List.mem_append] at hm
        rcases hm with hm | hm
        · exact hdrop hm
        · exact hlast (by rw [List.getLast?_eq_some_getLast hne, List.mem_singleton.mp hm])
    · exact hcons (hend s (by rw [List.dropLast_cons_of_ne_nil hr]; exact List.mem_cons_self ..))

end Segments

section FromLines

theorem checkLines_eq_ok {ids : List Uuid} {keys : List OrderKey} {lines : List Line} :
    checkLines ids keys lines = .ok () ↔
      (∀ line ∈ lines, validateLineBytes line.bytes = .ok ()) ∧
      (lines.map Line.id).Nodup ∧ (∀ line ∈ lines, line.id ∉ ids) ∧
      (lines.map Line.orderKey).Nodup ∧ ∀ line ∈ lines, line.orderKey ∉ keys := by
  induction lines generalizing ids keys with
  | nil => simp [checkLines, pure, Except.pure]
  | cons line rest ih =>
    cases hv : validateLineBytes line.bytes with
    | error e => simp [checkLines, hv, bind, Except.bind]
    | ok u =>
      simp only [checkLines, hv, bind, Except.bind]
      by_cases hid : line.id ∈ ids
      · simp [hid]
      · by_cases hkey : line.orderKey ∈ keys
        · simp [hid, hkey]
        · simp only [hid, hkey, if_false, ih]
          simp
          grind

instance : Std.TransCmp lineOrder := inferInstanceAs (Std.TransCmp (compareLex _ _))

theorem perm_sortLines (lines : List Line) : (sortLines lines).Perm lines :=
  List.perm_insertionSort _ _

theorem pairwise_sortLines (lines : List Line) :
    (sortLines lines).Pairwise fun a b => (lineOrder a b).isLE := by
  have : Std.Total fun a b : Line => (lineOrder a b).isLE = true := ⟨fun a b => by
    cases h : lineOrder a b
    · simp
    · simp
    · right
      have hswap : lineOrder b a = (lineOrder a b).swap := Std.OrientedCmp.eq_swap
      rw [hswap, h]
      rfl⟩
  have : IsTrans Line fun a b => (lineOrder a b).isLE = true :=
    ⟨fun _ _ _ => Std.TransCmp.isLE_trans⟩
  exact List.pairwise_insertionSort _ _

/-- In `lineOrder`, lines with different keys are ordered by key. -/
theorem orderKey_lt_of_lineOrder_isLE {a b : Line} (h : (lineOrder a b).isLE)
    (hne : a.orderKey ≠ b.orderKey) : a.orderKey < b.orderKey := by
  simp only [lineOrder, compareLex, compareOn] at h
  cases hc : compare a.orderKey b.orderKey with
  | lt => exact hc
  | eq => exact absurd (Std.LawfulEqOrd.eq_of_compare hc) hne
  | gt => simp [hc] at h

theorem lineOrder_isLE_of_orderKey_lt {a b : Line} (h : a.orderKey < b.orderKey) :
    (lineOrder a b).isLE := by
  simp only [lineOrder, compareLex, compareOn]
  rw [show compare a.orderKey b.orderKey = .lt from h]
  rfl

/-- Sorting lines with distinct keys puts the keys in increasing order. -/
theorem orderKeys_sortLines {lines : List Line} (hkeys : (lines.map Line.orderKey).Nodup) :
    ((sortLines lines).map Line.orderKey).Pairwise (· < ·) := by
  have hnodup : ((sortLines lines).map Line.orderKey).Nodup :=
    ((perm_sortLines lines).map _).nodup_iff.mpr hkeys
  rw [List.Nodup, List.pairwise_map] at hnodup
  rw [List.pairwise_map]
  exact ((pairwise_sortLines lines).and hnodup).imp fun h => orderKey_lt_of_lineOrder_isLE h.1 h.2

theorem sortLines_eq_self {lines : List Line} (h : (lines.map Line.orderKey).Pairwise (· < ·)) :
    sortLines lines = lines :=
  List.Pairwise.insertionSort_eq ((List.pairwise_map.mp h).imp lineOrder_isLE_of_orderKey_lt)

theorem renderLines_eq_flatten (lines : List Line) :
    renderLines lines = (lines.map Line.bytes).flatten := by
  rw [renderLines, List.flatMap_def]

theorem fromLines_eq_ok {lines : List Line} {document : Document} :
    fromLines lines = .ok document ↔
      checkLines [] [] lines = .ok () ∧ validateText (renderLines (sortLines lines)) = .ok () ∧
        document = ⟨renderLines (sortLines lines), sortLines lines⟩ := by
  unfold fromLines
  cases hc : checkLines [] [] lines with
  | error e => simp [bind, Except.bind]
  | ok u =>
    cases hv : validateText (renderLines (sortLines lines)) with
    | error e => simp [hv, bind, Except.bind]
    | ok u' => simp [hv, bind, Except.bind, pure, Except.pure, eq_comm]

end FromLines

section WellFormed

/-- The document invariant: the lines are the segments of the bytes, under strictly increasing
order keys and distinct ids, and the bytes pass the text check. -/
structure Document.WellFormed (document : Document) : Prop where
  lines_split : document.lines.map Line.bytes = splitLines document.bytes
  keys_sorted : (document.lines.map Line.orderKey).Pairwise (· < ·)
  ids_nodup : (document.lines.map Line.id).Nodup
  text_valid : validateText document.bytes = .ok ()

instance (document : Document) : Decidable document.WellFormed :=
  decidable_of_iff (document.lines.map Line.bytes = splitLines document.bytes ∧
      (document.lines.map Line.orderKey).Pairwise (· < ·) ∧ (document.lines.map Line.id).Nodup ∧
      validateText document.bytes = .ok ())
    ⟨fun ⟨h1, h2, h3, h4⟩ => ⟨h1, h2, h3, h4⟩, fun h => ⟨h.1, h.2, h.3, h.4⟩⟩

/-- What `from_lines` builds is well formed exactly when every line but the last ends in LF:
the checks it makes give the rest of the invariant. -/
theorem wellFormed_iff_of_fromLines {lines : List Line} {document : Document}
    (h : fromLines lines = .ok document) :
    document.WellFormed ↔ ∀ line ∈ document.lines.dropLast, line.bytes.getLast? = some lf := by
  obtain ⟨hc, hv, rfl⟩ := fromLines_eq_ok.mp h
  obtain ⟨hvalid, hids, -, hkeys, -⟩ := checkLines_eq_ok.mp hc
  constructor
  · intro hwf line hline
    have hseg := hwf.lines_split ▸ lineSegments_splitLines _
    exact hseg.getLast?_of_mem_dropLast _ (by rw [← List.map_dropLast]; exact List.mem_map_of_mem hline)
  · intro hend
    have hperm := perm_sortLines lines
    have hseg : LineSegments ((sortLines lines).map Line.bytes) := by
      refine lineSegments_of_valid ?_ ?_
      · intro s hs
        obtain ⟨line, hline, rfl⟩ := List.mem_map.mp hs
        exact hvalid line (hperm.subset hline)
      · intro s hs
        rw [← List.map_dropLast] at hs
        obtain ⟨line, hline, rfl⟩ := List.mem_map.mp hs
        exact hend line hline
    exact ⟨by rw [renderLines_eq_flatten, splitLines_flatten hseg], orderKeys_sortLines hkeys,
      (hperm.map _).nodup_iff.mpr hids, hv⟩

end WellFormed

section Open

theorem length_numberLines (idForOrdinal : ℕ → Uuid) (chunks : List (List UInt8))
    (orderKeys : List OrderKey) :
    (numberLines idForOrdinal chunks orderKeys).length = min chunks.length orderKeys.length := by
  simp [numberLines]

theorem map_bytes_numberLines (idForOrdinal : ℕ → Uuid) {chunks : List (List UInt8)}
    {orderKeys : List OrderKey} (h : chunks.length ≤ orderKeys.length) :
    (numberLines idForOrdinal chunks orderKeys).map Line.bytes = chunks := by
  apply List.ext_getElem
  · simp [length_numberLines, h]
  · intro i h1 h2
    simp [numberLines]

theorem map_orderKey_numberLines (idForOrdinal : ℕ → Uuid) {chunks : List (List UInt8)}
    {orderKeys : List OrderKey} (h : orderKeys.length ≤ chunks.length) :
    (numberLines idForOrdinal chunks orderKeys).map Line.orderKey = orderKeys := by
  apply List.ext_getElem
  · simp [length_numberLines, h]
  · intro i h1 h2
    simp [numberLines]

theorem map_id_numberLines (idForOrdinal : ℕ → Uuid) (chunks : List (List UInt8))
    (orderKeys : List OrderKey) :
    (numberLines idForOrdinal chunks orderKeys).map Line.id =
      (List.range (min chunks.length orderKeys.length)).map idForOrdinal := by
  apply List.ext_getElem
  · simp [length_numberLines]
  · intro i h1 h2
    simp [numberLines]

/-- `open_file` builds a well-formed document when the host's ids of the ordinals it uses are
distinct. -/
theorem openFile_wellFormed {base64 : Base64Engine} {bytes : List UInt8} {idForOrdinal : ℕ → Uuid}
    {document : Document} {changes : List RowChange}
    (h : openFile base64 bytes idForOrdinal = .ok (document, changes))
    (hid : ∀ i < (splitLines bytes).length, ∀ j < (splitLines bytes).length,
      idForOrdinal i = idForOrdinal j → i = j) : document.WellFormed := by
  have hbounds : BoundsOrdered none none := fun p hp => absurd hp (by simp)
  set n := (splitLines bytes).length with hn
  have hlen : (OrderKey.fillEvenly n none none n).length = n := OrderKey.length_fillEvenly le_rfl _ _
  unfold openFile at h
  cases hv : validateText bytes with
  | error e => simp [hv, bind, Except.bind] at h
  | ok u =>
    simp only [hv, ← hn, OrderKey.evenlyBetween_eq_ok hbounds, bind, Except.bind, pure, Except.pure,
      Except.ok.injEq, Prod.mk.injEq] at h
    obtain ⟨rfl, -⟩ := h
    refine ⟨map_bytes_numberLines _ hlen.ge, ?_, ?_, hv⟩
    · rw [map_orderKey_numberLines _ hlen.le]
      exact (OrderKey.fillEvenly_sorted_between n n hbounds).1
    · rw [map_id_numberLines, hlen, min_self]
      exact List.nodup_range.map_on fun i hi j hj => hid i (List.mem_range.mp hi) j (List.mem_range.mp hj)

theorem mapM_identityLine (lines : List Line) :
    ((lines.map Line.bytes).zip (lines.map fun line => (⟨line.id, line.orderKey.toSnapshotString⟩ :
      LineIdentity))).mapM identityLine = .ok lines := by
  induction lines with
  | nil => rfl
  | cons line rest ih =>
    simp only [List.map_cons, List.zip_cons_cons, List.mapM_cons, identityLine,
      fromSnapshotString_toSnapshotString, ih]
    rfl

/-- A well-formed document reopens from its bytes and the identities stored for it. -/
theorem openFileWithIdentities_identities {document : Document} (hwf : document.WellFormed) :
    openFileWithIdentities document.bytes document.identities = .ok document := by
  obtain ⟨hsplit, hkeys, hids, htext⟩ := hwf
  have hseg : LineSegments (document.lines.map Line.bytes) := hsplit ▸ lineSegments_splitLines _
  have hcheck : checkLines [] [] document.lines = .ok () := by
    refine checkLines_eq_ok.mpr ⟨fun line hline => ?_, hids, by simp, ?_, by simp⟩
    · exact hseg.validateLineBytes _ (List.mem_map_of_mem hline)
    · exact hkeys.imp OrderKey.ne_of_lt
  have hsort := sortLines_eq_self hkeys
  have hrender : renderLines document.lines = document.bytes := by
    rw [renderLines_eq_flatten, hsplit, flatten_splitLines]
  have hfrom : fromLines document.lines = .ok document :=
    fromLines_eq_ok.mpr ⟨hcheck, by rw [hsort, hrender]; exact htext, by rw [hsort, hrender]⟩
  unfold openFileWithIdentities
  rw [htext, ← hsplit]
  simp only [Document.identities, List.length_map, bind, Except.bind, mapM_identityLine, hfrom,
    ne_eq, not_true_eq_false, if_false]
  rfl

end Open

section Samples

def sampleLineId (ordinal : ℕ) : Uuid := ⟨Vector.replicate 16 (UInt8.ofNat (ordinal + 1))⟩

theorem valid_sixtyFour : OrderKey.Valid [64] := by decide

theorem valid_oneTwentyEight : OrderKey.Valid [128] := by decide

/-- `a\nb\n` as two lines. -/
def sampleDocument : Document :=
  ⟨[97, 10, 98, 10], [⟨sampleLineId 0, ⟨[64], valid_sixtyFour⟩, [97, 10]⟩,
    ⟨sampleLineId 1, ⟨[128], valid_oneTwentyEight⟩, [98, 10]⟩]⟩

/-- What `open_file` makes of `a\nb\n`, whatever the engine writes into the rows. -/
theorem openFile_sample (base64 : Base64Engine) :
    openFile base64 [97, 10, 98, 10] sampleLineId =
      .ok (sampleDocument, sampleDocument.lines.map (Line.upsertChange base64)) := by
  have htext : validateText [97, 10, 98, 10] = .ok () := by decide
  have hkeys : OrderKey.evenlyBetween none none (splitLines [97, 10, 98, 10]).length =
      .ok [⟨[64], valid_sixtyFour⟩, ⟨[128], valid_oneTwentyEight⟩] := by decide +kernel
  have hlines : numberLines sampleLineId (splitLines [97, 10, 98, 10])
      [⟨[64], valid_sixtyFour⟩, ⟨[128], valid_oneTwentyEight⟩] = sampleDocument.lines := by
    decide +kernel
  simp only [openFile, htext, hkeys, hlines, bind, Except.bind, pure, Except.pure]
  rfl

end Samples

end Lix.Text
