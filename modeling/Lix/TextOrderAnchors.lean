import Lix.TextLineMatching

/-! The order keys `file_changed` gives the new lines. The longest-increasing-subsequence scan
keeps, for each run length, the position ending the best run so far, sorted by old index, and
each position's predecessor on its run; following the predecessors back from the last tail
gives anchors that increase both in position and in old index. The anchors keep the keys of
their old lines, which increase with the old order, and every gap between two anchors gets keys
evenly between theirs: all the keys increase with the position. -/
namespace Lix.Text

section Patience

variable {oldForNew : List (Option ℕ)}

/-- Position `a` is matched to an earlier old line than position `b`. -/
def OldBefore (oldForNew : List (Option ℕ)) (a b : ℕ) : Prop :=
  ∃ v w, oldForNew.getD a none = some v ∧ oldForNew.getD b none = some w ∧ v < w

theorem OldBefore.trans {a b c : ℕ} (hab : OldBefore oldForNew a b)
    (hbc : OldBefore oldForNew b c) : OldBefore oldForNew a c := by
  obtain ⟨v, w, ha, hb, hvw⟩ := hab
  obtain ⟨w', x, hb', hc, hwx⟩ := hbc
  obtain rfl : w = w' := Option.some.inj (hb.symm.trans hb')
  exact ⟨v, x, ha, hc, hvw.trans hwx⟩

theorem partitionPoint_cons {α : Type*} (x : α) (xs : List α) (pred : α → Bool) :
    partitionPoint (x :: xs) pred = if pred x then partitionPoint xs pred + 1 else 0 := by
  unfold partitionPoint
  rw [List.takeWhile_cons]
  split_ifs <;> simp

/-- On tails sorted by old index, the insertion point for `v` splits them into the tails matched
below `v` and those matched at or above it. -/
theorem partitionPoint_tails (v : ℕ) : ∀ {tails : List ℕ},
    tails.Pairwise (OldBefore oldForNew) → (∀ t ∈ tails, (oldForNew.getD t none).isSome) →
    (∀ t ∈ tails.take (partitionPoint tails fun tail => (oldForNew.getD tail none).any (· < v)),
        ∃ w, oldForNew.getD t none = some w ∧ w < v) ∧
      ∀ t ∈ tails.drop (partitionPoint tails fun tail => (oldForNew.getD tail none).any (· < v)),
        ∃ w, oldForNew.getD t none = some w ∧ v ≤ w
  | [], _, _ => by simp
  | tail :: tails, hsorted, hmatched => by
    obtain ⟨hhead, hrest⟩ := List.pairwise_cons.mp hsorted
    obtain ⟨w, hw⟩ := Option.isSome_iff_exists.mp (hmatched tail List.mem_cons_self)
    rw [partitionPoint_cons]
    by_cases hlt : w < v
    · -- the head is below `v`; the rest splits the same way
      have hpred : (oldForNew.getD tail none).any (· < v) = true := by
        rw [hw]
        simpa using hlt
      obtain ⟨hbelow, habove⟩ := partitionPoint_tails v hrest
        fun t ht => hmatched t (List.mem_cons_of_mem _ ht)
      rw [if_pos hpred, List.take_succ_cons, List.drop_succ_cons]
      refine ⟨fun t ht => ?_, habove⟩
      rcases List.mem_cons.mp ht with rfl | ht
      · exact ⟨w, hw, hlt⟩
      · exact hbelow t ht
    · -- the head is at or above `v`, and every later tail above the head
      have hpred : ¬(oldForNew.getD tail none).any (· < v) = true := by
        rw [hw]
        simpa using hlt
      rw [if_neg hpred, List.take_zero, List.drop_zero]
      refine ⟨fun t ht => (List.not_mem_nil ht).elim, fun t ht => ?_⟩
      rcases List.mem_cons.mp ht with rfl | ht
      · exact ⟨w, hw, by omega⟩
      · obtain ⟨w', x, hw', hx, hlt'⟩ := hhead t ht
        obtain rfl : w = w' := Option.some.inj (hw.symm.trans hw')
        exact ⟨x, hx, by omega⟩

/-- The invariant of the scan before position `next`: the tails are earlier matched positions
sorted by old index, and a predecessor is an earlier position matched to an earlier old line. -/
structure PatienceState.Inv (oldForNew : List (Option ℕ)) (next : ℕ) (state : PatienceState) :
    Prop where
  tails_lt : ∀ t ∈ state.tails, t < next
  tails_matched : ∀ t ∈ state.tails, (oldForNew.getD t none).isSome
  tails_sorted : state.tails.Pairwise (OldBefore oldForNew)
  predecessor : ∀ p q : ℕ, state.predecessors[p]? = some (some q) → q < p ∧ OldBefore oldForNew q p

theorem PatienceState.Inv.mono {next next' : ℕ} {state : PatienceState}
    (h : Inv oldForNew next state) (hle : next ≤ next') : Inv oldForNew next' state :=
  ⟨fun t ht => lt_of_lt_of_le (h.tails_lt t ht) hle, h.tails_matched, h.tails_sorted, h.predecessor⟩

/-- The tails after a matched position: the tails below the insertion point, the position, and
the tails past the one it replaces. -/
theorem tails_patienceStep_sorted {state : PatienceState} {position v : ℕ}
    (hsorted : state.tails.Pairwise (OldBefore oldForNew))
    (hmatched : ∀ t ∈ state.tails, (oldForNew.getD t none).isSome)
    (hv : oldForNew.getD position none = some v) :
    (patienceStep oldForNew state (some v, position)).tails.Pairwise (OldBefore oldForNew) := by
  obtain ⟨tails, predecessors⟩ := state
  dsimp only at hsorted hmatched
  obtain ⟨hbelow, habove⟩ := partitionPoint_tails v hsorted hmatched
  set insertion := partitionPoint tails fun tail => (oldForNew.getD tail none).any (· < v)
  have hbefore : ∀ t ∈ tails.take insertion, OldBefore oldForNew t position := fun t ht => by
    obtain ⟨w, hw, hwv⟩ := hbelow t ht
    exact ⟨w, v, hw, hv, hwv⟩
  simp only [patienceStep]
  split_ifs with hend
  · -- a new longest run
    rw [List.pairwise_append]
    refine ⟨hsorted, List.pairwise_singleton _ _, fun t ht u hu => ?_⟩
    have hall : insertion = tails.length := hend
    rw [List.mem_singleton.mp hu]
    rw [hall, List.take_length] at hbefore
    exact hbefore t ht
  · have hlt : insertion < tails.length := by
      have : insertion ≤ tails.length := (List.takeWhile_prefix _).length_le
      omega
    rw [List.set_eq_take_append_cons_drop, if_pos hlt]
    have hsplit := List.take_append_drop insertion tails
    rw [← hsplit, List.pairwise_append] at hsorted
    obtain ⟨hleft, hright, hcross⟩ := hsorted
    rw [List.drop_eq_getElem_cons hlt, List.pairwise_cons] at hright
    obtain ⟨w, hw, hvw⟩ := habove tails[insertion]
      (by rw [List.drop_eq_getElem_cons hlt]; exact List.mem_cons_self)
    have hafter : ∀ u ∈ tails.drop (insertion + 1), OldBefore oldForNew position u := fun u hu => by
      obtain ⟨w', x, hw', hx, hwx⟩ := hright.1 u hu
      obtain rfl : w = w' := Option.some.inj (hw.symm.trans hw')
      exact ⟨v, x, hv, hx, by omega⟩
    rw [List.pairwise_append, List.pairwise_cons]
    refine ⟨hleft, ⟨hafter, hright.2⟩, fun t ht u hu => ?_⟩
    rcases List.mem_cons.mp hu with rfl | hu
    · exact hbefore t ht
    · exact hcross t ht u (List.mem_of_mem_tail (by rw [List.drop_eq_getElem_cons hlt]; exact hu))

theorem mem_tails_patienceStep {state : PatienceState} {position v t : ℕ}
    (ht : t ∈ (patienceStep oldForNew state (some v, position)).tails) :
    t ∈ state.tails ∨ t = position := by
  simp only [patienceStep] at ht
  split_ifs at ht
  · rcases List.mem_append.mp ht with ht | ht
    · exact Or.inl ht
    · exact Or.inr (List.mem_singleton.mp ht)
  · exact List.mem_or_eq_of_mem_set ht

/-- One position of the scan keeps the invariant. -/
theorem PatienceState.Inv.step {state : PatienceState} {position : ℕ} {entry : Option ℕ}
    (h : Inv oldForNew position state) (hentry : oldForNew.getD position none = entry) :
    Inv oldForNew (position + 1) (patienceStep oldForNew state (entry, position)) := by
  cases entry with
  | none => exact h.mono (Nat.le_succ _)
  | some v =>
    obtain ⟨hbelow, -⟩ := partitionPoint_tails v h.tails_sorted h.tails_matched
    refine ⟨fun t ht => ?_, fun t ht => ?_, tails_patienceStep_sorted h.tails_sorted
      h.tails_matched hentry, fun p q hpq => ?_⟩
    · rcases mem_tails_patienceStep ht with ht | rfl
      · exact (h.tails_lt t ht).trans (Nat.lt_succ_self _)
      · exact Nat.lt_succ_self _
    · rcases mem_tails_patienceStep ht with ht | rfl
      · exact h.tails_matched t ht
      · rw [hentry]
        rfl
    · simp only [patienceStep] at hpq
      split_ifs at hpq with hins
      · rw [List.getElem?_set] at hpq
        split_ifs at hpq with hp hlen
        · -- the position's predecessor is the tail before its insertion point
          subst hp
          have hq := Option.some.inj hpq
          set insertion := partitionPoint state.tails fun tail =>
            (oldForNew.getD tail none).any (· < v)
          have hqmem : q ∈ state.tails.take insertion := List.mem_of_getElem?
            (by rw [List.getElem?_take, if_pos (by omega)]; exact hq :
              (state.tails.take insertion)[insertion - 1]? = some q)
          obtain ⟨w, hw, hwv⟩ := hbelow q hqmem
          exact ⟨h.tails_lt q (List.mem_of_mem_take hqmem), w, v, hw, hentry, hwv⟩
        · exact h.predecessor p q hpq
      · exact h.predecessor p q hpq

/-- The whole scan keeps the invariant, over entries of increasing positions. -/
theorem PatienceState.Inv.foldl {state : PatienceState} {next : ℕ} (h : Inv oldForNew next state)
    (entries : List (Option ℕ × ℕ))
    (hentries : ∀ entry ∈ entries, oldForNew.getD entry.2 none = entry.1 ∧ next ≤ entry.2)
    (hsorted : (entries.map Prod.snd).Pairwise (· < ·)) :
    ∃ next', Inv oldForNew next' (entries.foldl (patienceStep oldForNew) state) := by
  induction entries generalizing state next with
  | nil => exact ⟨next, h⟩
  | cons entry entries ih =>
    obtain ⟨hentry, hle⟩ := hentries entry List.mem_cons_self
    rw [List.map_cons, List.pairwise_cons] at hsorted
    apply ih ((h.mono hle).step hentry) _ hsorted.2
    intro other hother
    exact ⟨(hentries other (List.mem_cons_of_mem _ hother)).1,
      hsorted.1 other.2 (List.mem_map_of_mem hother)⟩

end Patience

section OrderKeys

variable (document : Document) (oldForNew : List (Option ℕ))

/-- The key of the old line a position is matched to. -/
def matchedKey (position : ℕ) : Option OrderKey :=
  (oldForNew.getD position none).bind fun oldIndex => (document.lines[oldIndex]?).map Line.orderKey

/-- The key at a position before the gaps are filled: the matched key of an anchor to come. -/
def pendingKey (anchors : List ℕ) (position : ℕ) : Option OrderKey :=
  if position ∈ anchors then matchedKey document oldForNew position else none

variable {document oldForNew}

theorem writeKeys_eq (keys : List (Option OrderKey)) (cursor : ℕ) (allocated : List OrderKey)
    (h : cursor + allocated.length ≤ keys.length) :
    writeKeys keys (List.range' cursor allocated.length) allocated =
      keys.take cursor ++ allocated.map some ++ keys.drop (cursor + allocated.length) := by
  induction allocated generalizing cursor keys with
  | nil => simp [writeKeys]
  | cons key allocated ih =>
    have hlt : cursor < keys.length := by
      simp only [List.length_cons] at h
      omega
    have hrest := ih (keys.set cursor (some key)) (cursor + 1) (by simp at h ⊢; omega)
    unfold writeKeys at hrest ⊢
    rw [List.length_cons, List.range'_succ, List.zip_cons_cons, List.foldl_cons, hrest,
      List.drop_set_of_lt (by omega), List.set_eq_take_append_cons_drop, if_pos hlt,
      List.take_append, List.length_take, min_eq_left hlt.le, List.take_take,
      min_eq_right (Nat.le_succ cursor), Nat.add_sub_cancel_left, Nat.add_right_comm]
    simp [Nat.add_assoc]

/-- Position `a` is matched to an old line with a smaller key than the one of `b`. -/
def KeyBefore (document : Document) (oldForNew : List (Option ℕ)) (a b : ℕ) : Prop :=
  ∃ ka kb, matchedKey document oldForNew a = some ka ∧ matchedKey document oldForNew b = some kb ∧
    ka < kb

/-- In a strictly increasing list every member is at most the last one. -/
theorem le_of_mem_of_getLast? {keys : List OrderKey} (hsorted : keys.Pairwise (· < ·))
    {last key : OrderKey} (hlast : keys.getLast? = some last) (hkey : key ∈ keys) :
    key = last ∨ key < last := by
  obtain ⟨init, rfl⟩ := List.getLast?_eq_some_iff.mp hlast
  rcases List.mem_append.mp hkey with hkey | hkey
  · exact Or.inr ((List.pairwise_append.mp hsorted).2.2 key hkey last List.mem_cons_self)
  · exact Or.inl (List.mem_singleton.mp hkey)

/-- The fill loop before the anchors `rest`: the keys written so far, `done`, increase up to
`previous`; from the cursor on the keys are those of the anchors still to come. -/
structure FillInv (document : Document) (oldForNew : List (Option ℕ)) (rest : List ℕ)
    (done : List OrderKey) (fill : KeyFill) : Prop where
  keys_eq : fill.orderKeys = done.map some ++
    (List.range' fill.cursor (oldForNew.length - fill.cursor)).map (pendingKey document oldForNew rest)
  length_done : done.length = fill.cursor
  cursor_le : fill.cursor ≤ oldForNew.length
  done_sorted : done.Pairwise (· < ·)
  previous_eq : fill.previous = done.getLast?
  rest_bounds : ∀ a ∈ rest, fill.cursor ≤ a ∧ a < oldForNew.length
  rest_sorted : rest.Pairwise fun a b => a < b ∧ KeyBefore document oldForNew a b
  rest_keys : ∀ a ∈ rest, ∃ key, matchedKey document oldForNew a = some key ∧
    ∀ p ∈ fill.previous, p < key

/-- What stands at the anchor `a`, first of the anchors to come, and past it. -/
theorem drop_pending_anchor (rest : List ℕ) {a cursor : ℕ} {next : OrderKey}
    (hbound : cursor ≤ a ∧ a < oldForNew.length)
    (hnext : matchedKey document oldForNew a = some next) :
    ((List.range' cursor (oldForNew.length - cursor)).map
        (pendingKey document oldForNew (a :: rest))).drop (a - cursor) =
      some next :: (List.range' (a + 1) (oldForNew.length - (a + 1))).map
        (pendingKey document oldForNew rest) := by
  rw [← List.map_drop, List.drop_range', Nat.mul_one, Nat.add_sub_cancel' hbound.1,
    show oldForNew.length - cursor - (a - cursor) = oldForNew.length - (a + 1) + 1 by omega,
    List.range'_succ, List.map_cons]
  congr 1
  · simp [pendingKey, hnext]
  · apply List.map_congr_left
    intro k hk
    have hak : k ≠ a := by
      have := List.mem_range'_1.mp hk
      omega
    simp [pendingKey, hak]

/-- Every key written so far is below any key above `previous`. -/
theorem FillInv.lt_of_mem_done {rest : List ℕ} {done : List OrderKey} {fill : KeyFill}
    (h : FillInv document oldForNew rest done fill) {x y : OrderKey} (hx : x ∈ done)
    (hy : ∀ p ∈ fill.previous, p < y) : x < y := by
  obtain ⟨last, hlast⟩ : ∃ last, done.getLast? = some last := by
    cases hd : done.getLast? with
    | none =>
      rw [List.getLast?_eq_none_iff] at hd
      simp [hd] at hx
    | some last => exact ⟨last, rfl⟩
  have hlt := hy last (h.previous_eq ▸ hlast)
  rcases le_of_mem_of_getLast? h.done_sorted hlast hx with rfl | hxl
  · exact hlt
  · exact OrderKey.lt_trans hxl hlt

/-- One anchor of the fill loop: its gap gets keys between the previous key and its own. -/
theorem FillInv.step {a : ℕ} {rest : List ℕ} {done : List OrderKey} {fill : KeyFill}
    (h : FillInv document oldForNew (a :: rest) done fill) :
    ∃ fill' done', fillAnchor fill a = .ok fill' ∧ FillInv document oldForNew rest done' fill' := by
  obtain ⟨next, hnext, hprev⟩ := h.rest_keys a List.mem_cons_self
  have hbound := h.rest_bounds a List.mem_cons_self
  obtain ⟨hhead, hrest⟩ := List.pairwise_cons.mp h.rest_sorted
  have hdrop := drop_pending_anchor rest hbound hnext
  have hlen : done.length = fill.cursor := h.length_done
  have hget : fill.orderKeys.getD a none = some next := by
    have hsplit := List.take_append_drop (a - fill.cursor)
      ((List.range' fill.cursor (oldForNew.length - fill.cursor)).map
        (pendingKey document oldForNew (a :: rest)))
    rw [h.keys_eq, List.getD_eq_getElem?_getD, List.getElem?_append_right (by simp; omega),
      ← hsplit, List.getElem?_append_right (by simp; omega), hdrop]
    simp only [List.length_map, List.length_take, List.length_range', List.length_map]
    rw [show a - done.length - min (a - fill.cursor) (oldForNew.length - fill.cursor) = 0 by omega]
    rfl
  have hbounds : BoundsOrdered fill.previous (some next) := fun p hp n hn => by
    rw [← Option.mem_some_iff.mp hn]
    exact hprev p hp
  set allocated := OrderKey.fillEvenly (a - fill.cursor) fill.previous (some next) (a - fill.cursor)
  have hallocated : allocated.length = a - fill.cursor := OrderKey.length_fillEvenly le_rfl _ _
  obtain ⟨hsorted, hbetween⟩ := OrderKey.fillEvenly_sorted_between (a - fill.cursor)
    (a - fill.cursor) hbounds
  refine ⟨⟨(done ++ allocated ++ [next]).map some ++ (List.range' (a + 1)
      (oldForNew.length - (a + 1))).map (pendingKey document oldForNew rest), some next, a + 1⟩,
    done ++ allocated ++ [next], ?_, ?_⟩
  · have hwrite := writeKeys_eq fill.orderKeys fill.cursor allocated
      (by rw [h.keys_eq]; simp; omega)
    rw [hallocated, Nat.add_sub_cancel' hbound.1] at hwrite
    simp only [fillAnchor, hget, OrderKey.evenlyBetween_eq_ok hbounds, bind, Except.bind, pure,
      Except.pure]
    rw [hwrite, h.keys_eq, List.take_left' (by simpa using hlen), List.drop_append,
      List.drop_eq_nil_of_le (by simp; omega), List.nil_append, List.length_map, hlen, hdrop]
    simp
  · refine ⟨rfl, by simp [hlen, hallocated]; omega, by dsimp only; omega, ?_, by simp,
      fun b hb => ?_, hrest,
      fun b hb => ?_⟩
    · -- the keys so far stay below the gap's keys, which stay below the anchor's key
      rw [List.pairwise_append, List.pairwise_append]
      refine ⟨⟨h.done_sorted, hsorted, fun x hx y hy => h.lt_of_mem_done hx (hbetween y hy).1⟩,
        List.pairwise_singleton _ _, fun x hx y hy => ?_⟩
      rw [List.mem_singleton.mp hy]
      rcases List.mem_append.mp hx with hx | hx
      · exact h.lt_of_mem_done hx hprev
      · exact (hbetween x hx).2 next rfl
    · obtain ⟨hab, -⟩ := hhead b hb
      exact ⟨hab, (h.rest_bounds b (List.mem_cons_of_mem _ hb)).2⟩
    · obtain ⟨-, ka, kb, hka, hkb, hlt⟩ := hhead b hb
      rw [hnext, Option.some.injEq] at hka
      subst hka
      exact ⟨kb, hkb, fun p hp => by rw [← Option.mem_some_iff.mp hp]; exact hlt⟩

theorem FillInv.foldlM : ∀ {rest : List ℕ} {done : List OrderKey} {fill : KeyFill},
    FillInv document oldForNew rest done fill →
      ∃ fill' done', rest.foldlM fillAnchor fill = .ok fill' ∧ FillInv document oldForNew [] done' fill'
  | [], done, fill, h => ⟨fill, done, rfl, h⟩
  | _ :: _, _, _, h => by
    obtain ⟨fill', done', hstep, h'⟩ := h.step
    obtain ⟨fill'', done'', hfold, h''⟩ := h'.foldlM
    exact ⟨fill'', done'', by rw [List.foldlM_cons, hstep]; exact hfold, h''⟩

end OrderKeys

end Lix.Text
