import Lix.ListWindow

/-! Spans of a list: runs of its elements given by where they start and how many there are,
laid out in order and apart. When the elements `[offset, offset + deleteLen)` inside one span
are replaced by an insert, that span grows or shrinks by the difference and every later span
moves by it. The moved spans hold the same elements in the edited list as before, and the
resized span holds its old elements with the edit made inside it. -/
namespace Lix.ListSpans
open ListWindow

variable {α : Type*}

/-- A run of a list's elements: where it starts and how many there are. -/
structure Span where
  start : ℕ
  length : ℕ
  deriving DecidableEq, Repr

/-- One past the span's last element. -/
def Span.stop (span : Span) : ℕ := span.start + span.length

/-- The elements `[offset, offset + deleteLen)` lie inside the span. -/
def Span.Holds (span : Span) (offset deleteLen : ℕ) : Prop :=
  span.start ≤ offset ∧ offset + deleteLen ≤ span.stop

/-- Spans in order and apart, within a list of `size` elements. -/
structure Layout (size : ℕ) (spans : List Span) : Prop where
  ordered : spans.Pairwise fun a b => a.stop ≤ b.start
  within : ∀ span ∈ spans, span.stop ≤ size

/-- Span `i` after `deleteLen` elements inside span `index` are replaced by `insertLen`. -/
def editSpan (index insertLen deleteLen i : ℕ) (span : Span) : Span :=
  if i < index then span
  else if i = index then ⟨span.start, span.length + insertLen - deleteLen⟩
  else ⟨span.start + insertLen - deleteLen, span.length⟩

def editSpans (index insertLen deleteLen : ℕ) (spans : List Span) : List Span :=
  spans.mapIdx (editSpan index insertLen deleteLen)

@[simp] theorem length_editSpans (index insertLen deleteLen : ℕ) (spans : List Span) :
    (editSpans index insertLen deleteLen spans).length = spans.length :=
  List.length_mapIdx

theorem getElem?_editSpans (index insertLen deleteLen i : ℕ) (spans : List Span) :
    (editSpans index insertLen deleteLen spans)[i]? =
      spans[i]?.map (editSpan index insertLen deleteLen i) :=
  List.getElem?_mapIdx

theorem exists_of_getElem?_editSpans {index insertLen deleteLen i : ℕ} {spans : List Span}
    {edited : Span} (h : (editSpans index insertLen deleteLen spans)[i]? = some edited) :
    ∃ span, spans[i]? = some span ∧ editSpan index insertLen deleteLen i span = edited :=
  Option.map_eq_some_iff.mp ((getElem?_editSpans index insertLen deleteLen i spans).symm.trans h)

theorem pairwise_iff_getElem? {R : α → α → Prop} {l : List α} :
    l.Pairwise R ↔ ∀ (i j : ℕ) (a b : α), i < j → l[i]? = some a → l[j]? = some b → R a b := by
  rw [List.pairwise_iff_getElem]
  constructor
  · intro h i j a b hij hi hj
    obtain ⟨hi', rfl⟩ := List.getElem?_eq_some_iff.mp hi
    obtain ⟨hj', rfl⟩ := List.getElem?_eq_some_iff.mp hj
    exact h i j hi' hj' hij
  · intro h i j hi hj hij
    exact h i j _ _ hij (List.getElem?_eq_getElem hi) (List.getElem?_eq_getElem hj)

section Layout

variable {size : ℕ} {spans : List Span}

theorem Layout.stop_le_start (h : Layout size spans) {i j : ℕ} {a b : Span} (hij : i < j)
    (hi : spans[i]? = some a) (hj : spans[j]? = some b) : a.stop ≤ b.start :=
  pairwise_iff_getElem?.mp h.ordered i j a b hij hi hj

theorem Layout.start_le_start (h : Layout size spans) {i j : ℕ} {a b : Span} (hij : i ≤ j)
    (hi : spans[i]? = some a) (hj : spans[j]? = some b) : a.start ≤ b.start := by
  rcases hij.lt_or_eq with hlt | rfl
  · have := h.stop_le_start hlt hi hj
    unfold Span.stop at this
    omega
  · rw [hi, Option.some_inj] at hj
    rw [hj]

theorem Layout.stop_le (h : Layout size spans) {i : ℕ} {a : Span} (hi : spans[i]? = some a) :
    a.stop ≤ size :=
  h.within a (List.mem_of_getElem? hi)

variable {index offset deleteLen insertLen : ℕ} {edited : Span}

/-- Where span `i` stands against the edited span `index`: before it, the edited span itself,
or after it. -/
theorem Layout.editSpan_cases (h : Layout size spans) (hindex : spans[index]? = some edited)
    (hholds : edited.Holds offset deleteLen) {i : ℕ} {span : Span} (hi : spans[i]? = some span) :
    (i < index ∧ span.stop ≤ offset) ∨ (i = index ∧ span.Holds offset deleteLen) ∨
      (index < i ∧ offset + deleteLen ≤ span.start) := by
  rcases lt_trichotomy i index with hlt | rfl | hgt
  · exact .inl ⟨hlt, (h.stop_le_start hlt hi hindex).trans hholds.1⟩
  · rw [hi, Option.some_inj] at hindex
    exact .inr (.inl ⟨rfl, hindex ▸ hholds⟩)
  · exact .inr (.inr ⟨hgt, hholds.2.trans (h.stop_le_start hgt hindex hi)⟩)

/-- An edit inside one span moves every later span by its delta and grows the span it falls
in by it. -/
theorem Layout.editSpan_moves (h : Layout size spans) (hindex : spans[index]? = some edited)
    (hholds : edited.Holds offset deleteLen) {i : ℕ} {span : Span} (hi : spans[i]? = some span) :
    ((editSpan index insertLen deleteLen i span).start : ℤ) =
        span.start + (if index < i then (insertLen : ℤ) - deleteLen else 0) ∧
      ((editSpan index insertLen deleteLen i span).length : ℤ) =
        span.length + (if index = i then (insertLen : ℤ) - deleteLen else 0) := by
  rcases h.editSpan_cases hindex hholds hi with ⟨hlt, -⟩ | ⟨rfl, hin⟩ | ⟨hgt, hafter⟩
  · simp only [editSpan, if_pos hlt, if_neg (show ¬index < i by omega), if_neg hlt.ne', add_zero,
      and_self]
  · unfold Span.Holds Span.stop at hin
    simp only [editSpan, lt_irrefl, if_false, if_true, add_zero, true_and]
    omega
  · simp only [editSpan, if_neg (show ¬i < index by omega), if_neg hgt.ne', if_pos hgt, if_neg hgt.ne,
      add_zero, and_true]
    omega

/-- An edit inside one span keeps the spans in order and within the edited list. -/
theorem Layout.editSpans (h : Layout size spans) (hindex : spans[index]? = some edited)
    (hholds : edited.Holds offset deleteLen) :
    Layout (size + insertLen - deleteLen) (editSpans index insertLen deleteLen spans) := by
  have hsize := h.stop_le hindex
  unfold Span.Holds Span.stop at hholds
  unfold Span.stop at hsize
  constructor
  · rw [pairwise_iff_getElem?]
    intro i j a' b' hij hi' hj'
    obtain ⟨a, hi, rfl⟩ := exists_of_getElem?_editSpans hi'
    obtain ⟨b, hj, rfl⟩ := exists_of_getElem?_editSpans hj'
    have hab := h.stop_le_start hij hi hj
    have ha := h.editSpan_cases hindex hholds hi
    have hb := h.editSpan_cases hindex hholds hj
    unfold Span.Holds Span.stop at ha hb
    unfold Span.stop at hab ⊢
    unfold editSpan
    split_ifs <;> (try dsimp only) <;> omega
  · intro span' hmem
    obtain ⟨i, hi'⟩ := List.mem_iff_getElem?.mp hmem
    obtain ⟨span, hi, rfl⟩ := exists_of_getElem?_editSpans hi'
    have hstop := h.stop_le hi
    have hcase := h.editSpan_cases hindex hholds hi
    unfold Span.Holds Span.stop at hcase
    unfold Span.stop at hstop ⊢
    unfold editSpan
    split_ifs <;> (try dsimp only) <;> omega

end Layout

section Windows

variable {xs insert : List α} {offset deleteLen start stop : ℕ}

/-- Before the edit, the edited list reads as the old one. -/
theorem window_spliceFrom_of_le (hstop : stop ≤ offset) (hoffset : offset ≤ xs.length) :
    window (spliceFrom xs 0 [⟨offset, deleteLen, insert⟩]) start stop = window xs start stop := by
  rw [spliceFrom_single]
  dsimp only
  rw [List.append_assoc, window_append, List.length_take,
    min_eq_left hoffset, window_of_le (by omega : stop - offset ≤ start - offset), List.append_nil]
  unfold window
  rw [List.take_take, min_eq_left hstop]

/-- Past the edit, the edited list reads as the old one, moved by the change in length. -/
theorem window_spliceFrom_of_ge (hstart : offset + deleteLen ≤ start) (hle : start ≤ stop)
    (hoffset : offset ≤ xs.length) :
    window (spliceFrom xs 0 [⟨offset, deleteLen, insert⟩])
      (start + insert.length - deleteLen) (stop + insert.length - deleteLen) = window xs start stop := by
  have hprefix : (xs.take offset ++ insert).length = offset + insert.length := by
    simp [min_eq_left hoffset]
  rw [spliceFrom_single]
  dsimp only
  rw [window_append, hprefix, window_eq_nil_of_length_le (by simp [min_eq_left hoffset]; omega), List.nil_append, window_drop]
  congr 1 <;> omega

/-- Around the edit, the edited list reads as the old window with the edit made inside it. -/
theorem window_spliceFrom_of_holds (hstart : start ≤ offset) (hend : offset + deleteLen ≤ stop)
    (hstop : stop ≤ xs.length) :
    window (spliceFrom xs 0 [⟨offset, deleteLen, insert⟩]) start (stop + insert.length - deleteLen) =
      spliceFrom (window xs start stop) 0 [⟨offset - start, deleteLen, insert⟩] := by
  have hoffset : offset ≤ xs.length := by omega
  have hbefore : window (xs.take offset) start (stop + insert.length - deleteLen) =
      window xs start offset := by
    unfold window
    rw [List.take_take, min_eq_right (by omega)]
  have hinsert : window insert (start - offset) (stop + insert.length - deleteLen - offset) = insert := by
    rw [Nat.sub_eq_zero_of_le hstart, window_zero, List.take_of_length_le (by omega)]
  have hafter : window (xs.drop (offset + deleteLen)) (start - (offset + insert.length))
      (stop + insert.length - deleteLen - (offset + insert.length)) = window xs (offset + deleteLen) stop := by
    rw [window_drop]
    congr 1 <;> omega
  have htake : (window xs start stop).take (offset - start) = window xs start offset := by
    unfold window
    rw [List.take_drop, List.take_take, Nat.add_sub_cancel' hstart, min_eq_left (by omega)]
  have hdrop : (window xs start stop).drop (offset - start + deleteLen) =
      window xs (offset + deleteLen) stop := by
    unfold window
    rw [List.drop_drop]
    congr 1
    omega
  have hprefix : (xs.take offset ++ insert).length = offset + insert.length := by
    simp [min_eq_left hoffset]
  rw [spliceFrom_single, spliceFrom_single]
  dsimp only
  rw [window_append, hprefix, hafter, window_append,
    List.length_take, min_eq_left hoffset, hbefore, hinsert, htake, hdrop]

/-- An edit within the list changes its length by what it inserts less what it deletes. -/
theorem length_spliceFrom_single (hend : offset + deleteLen ≤ xs.length) :
    (spliceFrom xs 0 [⟨offset, deleteLen, insert⟩]).length = xs.length + insert.length - deleteLen := by
  rw [spliceFrom_single]
  simp only [List.length_append, List.length_take, List.length_drop]
  omega

/-- Splices sorted and apart give the same list applied at once or one at a time from the
last: a splice leaves in place everything before it. -/
theorem foldr_spliceFrom_single : ∀ {cursor : ℕ} {splices : List (Splice α)},
    cursor ≤ xs.length → FitWithin xs.length cursor splices →
    splices.foldr (fun splice ys => spliceFrom ys 0 [splice]) xs =
      xs.take cursor ++ spliceFrom xs cursor splices
  | cursor, [], _, _ => by simp
  | cursor, splice :: rest, _, ⟨hcursor, hend, hrest⟩ => by
    have hprefix : (xs.take (splice.offset + splice.deleteLen)).length = splice.offset + splice.deleteLen := by
      simp only [List.length_take]
      omega
    rw [List.foldr_cons, foldr_spliceFrom_single hend hrest, spliceFrom_single, spliceFrom_cons,
      List.take_append_of_le_length (by omega), List.take_take, min_eq_left (by omega),
      List.drop_left' hprefix, take_eq_take_append_window xs hcursor]
    simp only [List.append_assoc]

theorem spliceFrom_eq_foldr {splices : List (Splice α)} (h : FitWithin xs.length 0 splices) :
    spliceFrom xs 0 splices = splices.foldr (fun splice ys => spliceFrom ys 0 [splice]) xs := by
  rw [foldr_spliceFrom_single (Nat.zero_le _) h, List.take_zero, List.nil_append]

end Windows

variable {spans : List Span} {index offset deleteLen : ℕ} {insert : List α} {edited : Span}

/-- After an edit inside span `index`, every edited span holds in the edited list what its span
held before: the edited span its old elements with the edit made inside, every other span the
same elements. -/
theorem Layout.window_editSpan {xs : List α} (h : Layout xs.length spans)
    (hindex : spans[index]? = some edited) (hholds : edited.Holds offset deleteLen) {i : ℕ}
    {span : Span} (hi : spans[i]? = some span) :
    window (spliceFrom xs 0 [⟨offset, deleteLen, insert⟩])
        (editSpan index insert.length deleteLen i span).start
        (editSpan index insert.length deleteLen i span).stop =
      if i = index then spliceFrom (window xs span.start span.stop) 0 [⟨offset - span.start, deleteLen, insert⟩]
      else window xs span.start span.stop := by
  have hstop := h.stop_le hi
  have hoffset : offset ≤ xs.length := by
    have := h.stop_le hindex
    unfold Span.Holds Span.stop at hholds
    unfold Span.stop at this
    omega
  rcases h.editSpan_cases hindex hholds hi with ⟨hlt, hbefore⟩ | ⟨rfl, hholds⟩ | ⟨hgt, hafter⟩
  · rw [editSpan, if_pos hlt, if_neg hlt.ne]
    exact window_spliceFrom_of_le hbefore hoffset
  · unfold Span.Holds at hholds
    rw [editSpan, if_neg (lt_irrefl _), if_pos rfl, if_pos rfl]
    have hstop' : span.start + (span.length + insert.length - deleteLen) =
        span.stop + insert.length - deleteLen := by
      unfold Span.stop at hholds ⊢
      omega
    rw [Span.stop, hstop']
    exact window_spliceFrom_of_holds hholds.1 hholds.2 hstop
  · rw [editSpan, if_neg (by omega), if_neg hgt.ne', if_neg hgt.ne']
    have hstop' : span.start + insert.length - deleteLen + span.length =
        span.stop + insert.length - deleteLen := by
      unfold Span.stop
      omega
    rw [Span.stop, hstop']
    exact window_spliceFrom_of_ge hafter (Nat.le_add_right _ _) hoffset

section Lookup

variable {size : ℕ} {spans : List Span} {offset deleteLen : ℕ}

/-- The number of spans starting at or before `offset`, for spans in order: the index of the
first span starting after it. -/
def countStartingBy (spans : List Span) (offset : ℕ) : ℕ := spans.findIdx fun span => offset < span.start

theorem countStartingBy_le_length : countStartingBy spans offset ≤ spans.length :=
  List.findIdx_le_length

/-- For spans in order, the spans below the count are those starting at or before `offset`. -/
theorem Layout.lt_countStartingBy_iff (h : Layout size spans) (offset : ℕ) {i : ℕ} {span : Span}
    (hi : spans[i]? = some span) : i < countStartingBy spans offset ↔ span.start ≤ offset := by
  obtain ⟨hlen, rfl⟩ := List.getElem?_eq_some_iff.mp hi
  constructor
  · intro hlt
    simpa using List.not_of_lt_findIdx hlt
  · intro hle
    by_contra hge
    have hfirst : countStartingBy spans offset < spans.length := by omega
    have hafter : offset < spans[countStartingBy spans offset].start :=
      of_decide_eq_true (@List.findIdx_getElem Span (fun span : Span => decide (offset < span.start)) spans hfirst)
    have hmono := h.start_le_start (not_lt.mp hge) (List.getElem?_eq_getElem hfirst) hi
    omega

/-- The span an edit of `[offset, offset + deleteLen)` falls in: the last one starting at or
before `offset`, if the edit ends inside it. -/
def editedSpan (spans : List Span) (offset deleteLen : ℕ) : Option ℕ :=
  match countStartingBy spans offset with
  | 0 => none
  | count + 1 =>
    match spans[count]? with
    | some span => if offset + deleteLen ≤ span.stop then some count else none
    | none => none

theorem editedSpan_eq_some {index : ℕ} (hedited : editedSpan spans offset deleteLen = some index) :
    ∃ span, spans[index]? = some span ∧ countStartingBy spans offset = index + 1 ∧
      offset + deleteLen ≤ span.stop := by
  unfold editedSpan at hedited
  split at hedited
  · cases hedited
  · rename_i count hcount
    split at hedited
    · rename_i span hspan
      split_ifs at hedited with hend
      cases hedited
      exact ⟨span, hspan, hcount, hend⟩
    · cases hedited

/-- For spans in order, the span an edit falls in holds it, and every later span starts after
the edit's offset. -/
theorem Layout.holds_of_editedSpan (h : Layout size spans) {index : ℕ}
    (hedited : editedSpan spans offset deleteLen = some index) :
    ∃ span, spans[index]? = some span ∧ span.Holds offset deleteLen ∧
      ∀ i later, spans[i]? = some later → index < i → offset < later.start := by
  obtain ⟨span, hspan, hcount, hend⟩ := editedSpan_eq_some hedited
  have hstart : span.start ≤ offset := (h.lt_countStartingBy_iff offset hspan).mp (by omega)
  refine ⟨span, hspan, ⟨hstart, hend⟩, fun i later hi hlt => ?_⟩
  have := (h.lt_countStartingBy_iff offset hi).not.mp (by omega)
  omega

/-- For spans in order, the spans starting at or before a non-empty span's start are those up
to it. -/
theorem Layout.countStartingBy_start (h : Layout size spans) {index : ℕ} {span : Span}
    (hspan : spans[index]? = some span) (hpos : 0 < span.length) :
    countStartingBy spans span.start = index + 1 := by
  apply le_antisymm
  · -- the next span starts past this one's start
    by_contra hgt
    have hle : countStartingBy spans span.start ≤ spans.length := countStartingBy_le_length
    have hnext : index + 1 < spans.length := by omega
    have hnext' := List.getElem?_eq_getElem hnext
    have hstart := (h.lt_countStartingBy_iff span.start hnext').mp (by omega)
    have hstop := h.stop_le_start (Nat.lt_succ_self index) hspan hnext'
    unfold Span.stop at hstop
    omega
  · exact (h.lt_countStartingBy_iff span.start hspan).mpr le_rfl

/-- For spans in order, an edit of a whole non-empty span falls in that span. -/
theorem Layout.editedSpan_of_getElem? (h : Layout size spans) {index : ℕ} {span : Span}
    (hspan : spans[index]? = some span) (hpos : 0 < span.length) :
    editedSpan spans span.start span.length = some index := by
  unfold editedSpan
  rw [h.countStartingBy_start hspan hpos]
  simp [hspan, Span.stop]

/-- The spans after an edit: the span it falls in is resized and every later one moved. -/
def applyEdit (spans : List Span) (offset deleteLen insertLen : ℕ) : List Span :=
  match editedSpan spans offset deleteLen with
  | some index => editSpans index insertLen deleteLen spans
  | none => spans

/-- The runs the spans hold after an edit: the run of the span it falls in takes the edit at its
own offset, the others stay. -/
def applyEditParts (spans : List Span) (parts : List (List α)) (offset deleteLen : ℕ)
    (insert : List α) : List (List α) :=
  match editedSpan spans offset deleteLen with
  | some index =>
    match spans[index]? with
    | some span => parts.modify index fun part => spliceFrom part 0 [⟨offset - span.start, deleteLen, insert⟩]
    | none => parts
  | none => parts

end Lookup

section Locates

variable {xs : List α} {spans : List Span} {parts : List (List α)}

/-- `spans` lay out in `xs` the runs `parts`, in order and apart. -/
structure Locates (xs : List α) (spans : List Span) (parts : List (List α)) : Prop where
  layout : Layout xs.length spans
  length_eq : parts.length = spans.length
  window_eq : ∀ {i : ℕ} {span : Span} {part : List α}, spans[i]? = some span → parts[i]? = some part →
    window xs span.start span.stop = part

/-- Spans in order within a list locate what they hold. -/
theorem Layout.locates (h : Layout xs.length spans) :
    Locates xs spans (spans.map fun span => window xs span.start span.stop) where
  layout := h
  length_eq := List.length_map _
  window_eq := fun hspan hpart => by
    rw [List.getElem?_map, hspan, Option.map_some, Option.some_inj] at hpart
    exact hpart

/-- An edit inside one of the located runs keeps them located: the edited list holds the edited
run at the resized span and every other run at its moved span. -/
theorem Locates.edit {offset deleteLen index : ℕ} {insert : List α} (h : Locates xs spans parts)
    (hedited : editedSpan spans offset deleteLen = some index) :
    Locates (spliceFrom xs 0 [⟨offset, deleteLen, insert⟩])
      (applyEdit spans offset deleteLen insert.length) (applyEditParts spans parts offset deleteLen insert) := by
  obtain ⟨edited, hindex, hholds, -⟩ := h.layout.holds_of_editedSpan hedited
  have hend : offset + deleteLen ≤ xs.length := hholds.2.trans (h.layout.stop_le hindex)
  unfold applyEdit applyEditParts
  rw [hedited]
  simp only [hindex]
  refine ⟨?_, by simp [h.length_eq], fun hspan' hpart => ?_⟩
  · rw [length_spliceFrom_single hend]
    exact h.layout.editSpans hindex hholds
  · rename_i i span' part'
    obtain ⟨span, hspan, rfl⟩ := exists_of_getElem?_editSpans hspan'
    obtain ⟨part, hpart_old⟩ : ∃ part, parts[i]? = some part := by
      have hi : i < parts.length := h.length_eq ▸ (List.getElem?_eq_some_iff.mp hspan).1
      exact ⟨parts[i], List.getElem?_eq_getElem hi⟩
    rw [List.getElem?_modify, hpart_old] at hpart
    simp only [Option.map_eq_map, Option.map_some, Option.some_inj] at hpart
    rw [h.layout.window_editSpan hindex hholds hspan, ← hpart, h.window_eq hspan hpart_old]
    by_cases hi : i = index
    · subst hi
      rw [hindex, Option.some_inj] at hspan
      subst hspan
      rw [if_pos rfl]
    · rw [if_neg hi, if_neg (Ne.symm hi)]

end Locates

section Batches

/-! A batch of splices that each replace a whole non-empty span, sorted by offset, applied to the
list at once. One at a time from the last, each is the single edit of its span, so the spans
and what they hold follow: every span moves by what the splices before it add, and a replaced
span takes its splice's insert. -/

variable {xs : List α} {size : ℕ} {spans : List Span} {parts : List (List α)}
  {splices : List (Splice α)}

/-- What a splice adds to the length of the list. -/
def spliceDelta (splice : Splice α) : ℤ := (splice.insert.length : ℤ) - splice.deleteLen

/-- The span a splice replaces, for spans in order: the last one starting at or before it. -/
def spliceIndex (spans : List Span) (splice : Splice α) : ℕ := countStartingBy spans splice.offset - 1

/-- Each splice replaces a whole non-empty span. -/
def ReplacesSpans (spans : List Span) (splices : List (Splice α)) : Prop :=
  ∀ splice ∈ splices, ∃ (index : ℕ) (span : Span), spans[index]? = some span ∧ splice.offset = span.start ∧
    splice.deleteLen = span.length ∧ 0 < span.length

/-- Spans and the runs they hold after splices applied one at a time from the last. -/
def applySplices (splices : List (Splice α)) (located : List Span × List (List α)) :
    List Span × List (List α) :=
  splices.foldr (fun splice located =>
    (applyEdit located.1 splice.offset splice.deleteLen splice.insert.length,
      applyEditParts located.1 located.2 splice.offset splice.deleteLen splice.insert)) located

theorem length_applyEdit (spans : List Span) (offset deleteLen insertLen : ℕ) :
    (applyEdit spans offset deleteLen insertLen).length = spans.length := by
  unfold applyEdit
  split <;> simp

theorem length_applySplices (splices : List (Splice α)) (located : List Span × List (List α)) :
    (applySplices splices located).1.length = located.1.length := by
  induction splices with
  | nil => rfl
  | cons splice rest ih => exact (length_applyEdit _ _ _ _).trans ih

theorem Layout.spliceIndex_eq (h : Layout size spans) {splice : Splice α} {index : ℕ} {span : Span}
    (hspan : spans[index]? = some span) (hpos : 0 < span.length) (hoffset : splice.offset = span.start) :
    spliceIndex spans splice = index := by
  rw [spliceIndex, hoffset, h.countStartingBy_start hspan hpos, Nat.add_sub_cancel]

/-- A splice at a later offset replaces a later span. -/
theorem Layout.lt_of_offset_lt (h : Layout size spans) {index index' : ℕ} {span span' : Span}
    (hspan : spans[index]? = some span) (hspan' : spans[index']? = some span')
    (hlt : span.start < span'.start) : index < index' := by
  by_contra hle
  have := h.start_le_start (not_lt.mp hle) hspan' hspan
  omega

/-- Sorted splices of whole spans fit the list from any cursor at or before them. -/
theorem Layout.fitWithin_of_replaces (h : Layout xs.length spans) :
    ∀ {splices : List (Splice α)} {cursor : ℕ}, splices.Pairwise (fun a b => a.offset < b.offset) →
      ReplacesSpans spans splices → (∀ splice ∈ splices, cursor ≤ splice.offset) →
      FitWithin xs.length cursor splices
  | [], _, _, _, _ => trivial
  | splice :: rest, _, hsorted, hreplaces, hcursor => by
    obtain ⟨index, span, hspan, hoffset, hdelete, -⟩ := hreplaces splice List.mem_cons_self
    have hstop := h.stop_le hspan
    refine ⟨hcursor splice List.mem_cons_self, by rw [hoffset, hdelete]; exact hstop, ?_⟩
    refine h.fitWithin_of_replaces (List.pairwise_cons.mp hsorted).2
      (fun s hs => hreplaces s (List.mem_cons_of_mem _ hs)) fun s hs => ?_
    obtain ⟨index', span', hspan', hoffset', -, -⟩ := hreplaces s (List.mem_cons_of_mem _ hs)
    have hlt := (List.pairwise_cons.mp hsorted).1 s hs
    have hbefore := h.stop_le_start (h.lt_of_offset_lt hspan hspan' (by omega)) hspan hspan'
    unfold Span.stop at hbefore
    omega

/-- Sorted splices of whole non-empty spans, applied at once, leave the runs located at the
spans they leave, each span moved by what the splices of earlier spans add and grown by what
its own splice adds. -/
theorem Locates.batch (h : Locates xs spans parts) :
    ∀ {splices : List (Splice α)}, splices.Pairwise (fun a b => a.offset < b.offset) →
      ReplacesSpans spans splices →
      Locates (spliceFrom xs 0 splices) (applySplices splices (spans, parts)).1
          (applySplices splices (spans, parts)).2 ∧
        ∀ {i : ℕ} {span : Span}, spans[i]? = some span →
          ∃ span', (applySplices splices (spans, parts)).1[i]? = some span' ∧
            (span'.start : ℤ) = span.start +
              (splices.map fun s => if spliceIndex spans s < i then spliceDelta s else 0).sum ∧
            (span'.length : ℤ) = span.length +
              (splices.map fun s => if spliceIndex spans s = i then spliceDelta s else 0).sum
  | [], _, _ => ⟨by simpa [applySplices] using h, fun hspan => ⟨_, hspan, by simp, by simp⟩⟩
  | splice :: rest, hsorted, hreplaces => by
    obtain ⟨hhead, hsorted_rest⟩ := List.pairwise_cons.mp hsorted
    have hreplaces_rest : ReplacesSpans spans rest := fun s hs => hreplaces s (List.mem_cons_of_mem _ hs)
    obtain ⟨hlocates, hclosed⟩ := h.batch hsorted_rest hreplaces_rest
    obtain ⟨index, edited, hindex, hoffset, hdelete, hpos⟩ := hreplaces splice List.mem_cons_self
    have hsplice_index : spliceIndex spans splice = index := h.layout.spliceIndex_eq hindex hpos hoffset
    have hlater : ∀ s ∈ rest, index < spliceIndex spans s := fun s hs => by
      obtain ⟨index', span', hspan', hoffset', -, hpos'⟩ := hreplaces_rest s hs
      rw [h.layout.spliceIndex_eq hspan' hpos' hoffset']
      exact h.layout.lt_of_offset_lt hindex hspan' (by rw [← hoffset, ← hoffset']; exact hhead s hs)
    have hnone : ∀ (p : ℕ → Prop) [DecidablePred p], (∀ j, index < j → ¬p j) →
        (rest.map fun s => if p (spliceIndex spans s) then spliceDelta s else 0).sum = 0 :=
      fun p _ hp => List.sum_eq_zero fun x hx => by
        obtain ⟨s, hs, rfl⟩ := List.mem_map.mp hx
        rw [if_neg (hp _ (hlater s hs))]
    obtain ⟨edited', hedited', hstart', hlength'⟩ := hclosed hindex
    rw [hnone (· < index) (fun j hj => by omega), add_zero] at hstart'
    rw [hnone (· = index) (fun j hj => by omega), add_zero] at hlength'
    obtain rfl : edited' = edited := by
      cases edited'
      cases edited
      dsimp only at hstart' hlength'
      simp only [Span.mk.injEq]
      exact ⟨by omega, by omega⟩
    have hediting : editedSpan (applySplices rest (spans, parts)).1 splice.offset splice.deleteLen =
        some index := by
      rw [hoffset, hdelete]
      exact hlocates.layout.editedSpan_of_getElem? hedited' hpos
    have hfile : spliceFrom xs 0 (splice :: rest) = spliceFrom (spliceFrom xs 0 rest) 0 [splice] := by
      rw [spliceFrom_eq_foldr (h.layout.fitWithin_of_replaces hsorted hreplaces fun _ _ => Nat.zero_le _),
        spliceFrom_eq_foldr (h.layout.fitWithin_of_replaces hsorted_rest hreplaces_rest fun _ _ => Nat.zero_le _),
        List.foldr_cons]
    refine ⟨hfile ▸ hlocates.edit hediting, fun {i span} hspan => ?_⟩
    obtain ⟨old, hold, hold_start, hold_length⟩ := hclosed hspan
    have happly : (applySplices (splice :: rest) (spans, parts)).1 =
        editSpans index splice.insert.length splice.deleteLen (applySplices rest (spans, parts)).1 := by
      show applyEdit (applySplices rest (spans, parts)).1 splice.offset splice.deleteLen
        splice.insert.length = _
      rw [applyEdit, hediting]
    have hdelta : spliceDelta splice = (splice.insert.length : ℤ) - splice.deleteLen := rfl
    have hholds : edited'.Holds splice.offset splice.deleteLen := by
      unfold Span.Holds Span.stop
      omega
    obtain ⟨hmoved_start, hmoved_length⟩ := hlocates.layout.editSpan_moves hedited' hholds hold
    rw [happly, getElem?_editSpans, hold, Option.map_some]
    refine ⟨_, rfl, ?_, ?_⟩ <;> simp only [List.map_cons, List.sum_cons, hsplice_index]
    · rw [hmoved_start, hold_start, hdelta]
      ring
    · rw [hmoved_length, hold_length, hdelta]
      ring

end Batches

end Lix.ListSpans
