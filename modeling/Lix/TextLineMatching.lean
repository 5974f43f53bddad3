import Lix.TextFileChanged

/-! What the matching of `file_changed` establishes. Splices that are sorted, apart and in
bounds are applied. The matching is a partial injection from the new chunks to the old lines,
with `old_used` marking the old lines taken; every phase only assigns an unmatched chunk to an
unused old line, so it keeps that invariant and every match made before. At the end the
unchanged prefix and suffix are matched in place, and the exact byte matches of the changed
middle are maximal: a middle chunk goes without an equal old line only when every equal old
line of the middle was taken by a chunk with its bytes. -/
namespace Lix.Text
open ListWindow

section Splices

/-- Splices sorted, apart and within `length`, from `cursor` on. -/
def SplicesFit (length : ℕ) : ℕ → List FileEdit → Prop
  | _, [] => True
  | cursor, splice :: rest => cursor ≤ splice.offset ∧ splice.offset + splice.deleteLen ≤ length ∧
      SplicesFit length (splice.offset + splice.deleteLen) rest

instance decidableSplicesFit (length : ℕ) :
    ∀ cursor splices, Decidable (SplicesFit length cursor splices)
  | _, [] => isTrue trivial
  | _, splice :: rest =>
    haveI := decidableSplicesFit length (splice.offset + splice.deleteLen) rest
    inferInstanceAs (Decidable (_ ∧ _ ∧ _))

end Splices

section Count

end Count

namespace LineMatching

variable {oldCount newCount : ℕ} {matching matching' : LineMatching}

/-- The matching is a partial injection from chunks to old lines, and `oldUsed` marks exactly
the old lines it takes. -/
structure Inv (oldCount newCount : ℕ) (matching : LineMatching) : Prop where
  length_oldForNew : matching.oldForNew.length = newCount
  length_oldUsed : matching.oldUsed.length = oldCount
  used_iff : ∀ j : ℕ, matching.oldUsed[j]? = some true ↔ ∃ i : ℕ, matching.oldForNew[i]? = some (some j)
  injective : ∀ i i' j : ℕ, matching.oldForNew[i]? = some (some j) →
    matching.oldForNew[i']? = some (some j) → i = i'

/-- Every match of `matching` is kept by `matching'`. -/
def Extends (matching matching' : LineMatching) : Prop :=
  ∀ i j : ℕ, matching.oldForNew[i]? = some (some j) → matching'.oldForNew[i]? = some (some j)

theorem Extends.refl (matching : LineMatching) : Extends matching matching := fun _ _ h => h

theorem Extends.trans {matching'' : LineMatching} (h : Extends matching matching')
    (h' : Extends matching' matching'') : Extends matching matching'' :=
  fun i j hij => h' i j (h i j hij)

/-- The chunk `pair.1` is unmatched and the old line `pair.2` unused. -/
def Free (matching : LineMatching) (pair : ℕ × ℕ) : Prop :=
  matching.oldForNew[pair.1]? = some none ∧ matching.oldUsed[pair.2]? = some false

@[simp] theorem oldForNew_assign (i j : ℕ) :
    (matching.assign i j).oldForNew = matching.oldForNew.set i (some j) := rfl

@[simp] theorem oldUsed_assign (i j : ℕ) :
    (matching.assign i j).oldUsed = matching.oldUsed.set j true := rfl

/-- A match after an assignment is the new one or one from before. -/
theorem match_of_assign {i j k l : ℕ} (h : (matching.assign i j).oldForNew[k]? = some (some l)) :
    matching.oldForNew[k]? = some (some l) ∨ (k = i ∧ l = j) := by
  rw [oldForNew_assign, List.getElem?_set] at h
  split_ifs at h with hik
  · exact Or.inr ⟨hik.symm, by simpa using h.symm⟩
  · exact Or.inl h

theorem extends_assign {i j : ℕ} (hi : matching.oldForNew[i]? = some none) :
    Extends matching (matching.assign i j) := by
  intro k l hkl
  rw [oldForNew_assign, List.getElem?_set, if_neg]
  · exact hkl
  · rintro rfl
    rw [hi] at hkl
    cases hkl

theorem assign_match_self {i j : ℕ} (hi : matching.oldForNew[i]? = some none) :
    (matching.assign i j).oldForNew[i]? = some (some j) := by
  have hlt : i < matching.oldForNew.length := (List.getElem?_eq_some_iff.mp hi).1
  simp [hlt]

theorem Inv.assign (h : Inv oldCount newCount matching) {i j : ℕ} (hfree : Free matching (i, j)) :
    Inv oldCount newCount (matching.assign i j) where
  length_oldForNew := by simp [h.length_oldForNew]
  length_oldUsed := by simp [h.length_oldUsed]
  used_iff k := by
    obtain ⟨hi, hj⟩ := hfree
    have hjlt : j < matching.oldUsed.length := (List.getElem?_eq_some_iff.mp hj).1
    by_cases hjk : j = k
    · subst hjk
      simp only [oldUsed_assign, List.getElem?_set_self hjlt, true_iff]
      exact ⟨i, assign_match_self hi⟩
    · rw [oldUsed_assign, List.getElem?_set_ne hjk, h.used_iff]
      constructor
      · rintro ⟨i', hi'⟩
        exact ⟨i', extends_assign hi i' k hi'⟩
      · rintro ⟨i', hi'⟩
        rcases match_of_assign hi' with hi' | ⟨-, rfl⟩
        · exact ⟨i', hi'⟩
        · exact absurd rfl hjk
  injective k k' l hk hk' := by
    obtain ⟨hi, hj⟩ := hfree
    have hold : ∀ k, matching.oldForNew[k]? = some (some j) → False := fun k hk => by
      have := (h.used_iff j).mpr ⟨k, hk⟩
      rw [hj] at this
      cases this
    rcases match_of_assign hk with hk | ⟨hki, hkl⟩
    · rcases match_of_assign hk' with hk' | ⟨-, hkl'⟩
      · exact h.injective k k' l hk hk'
      · exact (hold k (hkl' ▸ hk)).elim
    · rcases match_of_assign hk' with hk' | ⟨hk'i, -⟩
      · exact (hold k' (hkl ▸ hk')).elim
      · rw [hki, hk'i]

theorem Free.assign {i j : ℕ} {pair : ℕ × ℕ} (h : Free matching pair) (hi : pair.1 ≠ i)
    (hj : pair.2 ≠ j) : Free (matching.assign i j) pair := by
  obtain ⟨hnew, hold⟩ := h
  exact ⟨by rw [oldForNew_assign, List.getElem?_set_ne (Ne.symm hi), hnew],
    by rw [oldUsed_assign, List.getElem?_set_ne (Ne.symm hj), hold]⟩

section AssignAll

variable {pairs : List (ℕ × ℕ)}

/-- Pairs with distinct chunks and distinct old lines, all free to begin with. -/
structure FreePairs (matching : LineMatching) (pairs : List (ℕ × ℕ)) : Prop where
  nodup_new : (pairs.map Prod.fst).Nodup
  nodup_old : (pairs.map Prod.snd).Nodup
  free : ∀ pair ∈ pairs, Free matching pair

/-- After assigning the first pair, the others are still free. -/
theorem FreePairs.tail {pair : ℕ × ℕ} (h : FreePairs matching (pair :: pairs)) :
    FreePairs (matching.assign pair.1 pair.2) pairs where
  nodup_new := (List.nodup_cons.mp h.nodup_new).2
  nodup_old := (List.nodup_cons.mp h.nodup_old).2
  free other hother := by
    have hnew := (List.nodup_cons.mp h.nodup_new).1
    have hold := (List.nodup_cons.mp h.nodup_old).1
    refine (h.free other (List.mem_cons_of_mem _ hother)).assign ?_ ?_
    · rintro heq
      exact hnew (heq ▸ List.mem_map_of_mem hother)
    · rintro heq
      exact hold (heq ▸ List.mem_map_of_mem hother)

end AssignAll

end LineMatching

section Unmatched

open LineMatching

variable {matching : LineMatching}

end Unmatched

namespace LineMatching

section Exact

variable {oldCount newCount : ℕ} {lines : List Line} {middle : List ℕ} {matching : LineMatching}

theorem getD_true_eq_false_iff {flags : List Bool} {j : ℕ} :
    flags.getD j true = false ↔ flags[j]? = some false := by
  rw [List.getD_eq_getElem?_getD]
  cases flags[j]? <;> simp

/-- One chunk of the exact pass either takes an unused old line of the middle with its bytes,
or finds every such line used and changes nothing. -/
theorem matchExact_cases (lines : List Line) (middle : List ℕ) (matching : LineMatching)
    (chunk : List UInt8 × ℕ) :
    (∃ j ∈ middle, matching.oldUsed[j]? = some false ∧ (lines[j]?).map Line.bytes = some chunk.1 ∧
      matchExact lines middle matching chunk = matching.assign chunk.2 j) ∨
    ((∀ j ∈ middle, (lines[j]?).map Line.bytes = some chunk.1 →
        matching.oldUsed.getD j true = true) ∧
      matchExact lines middle matching chunk = matching) := by
  rcases hfind : exactMatch lines middle matching.oldUsed chunk.1 with _ | j
  · refine Or.inr ⟨fun j hj hbytes => ?_, by rw [matchExact, hfind]⟩
    have hnot := List.find?_eq_none.mp hfind j hj
    simpa [hbytes] using hnot
  · have hsat := List.find?_some hfind
    simp only [Bool.and_eq_true, Bool.not_eq_eq_eq_not, Bool.not_true, decide_eq_true_eq] at hsat
    exact Or.inl ⟨j, List.mem_of_find?_eq_some hfind, getD_true_eq_false_iff.mp hsat.1, hsat.2,
      by rw [matchExact, hfind]⟩

/-- What the exact pass needs of the chunks it has yet to see: distinct indexes, all unmatched. -/
structure ExactPending (matching : LineMatching) (rest : List (List UInt8 × ℕ)) : Prop where
  nodup : (rest.map Prod.snd).Nodup
  free : ∀ chunk ∈ rest, matching.oldForNew[chunk.2]? = some none

theorem ExactPending.step {chunk : List UInt8 × ℕ} {rest : List (List UInt8 × ℕ)}
    (h : ExactPending matching (chunk :: rest)) :
    ExactPending (matchExact lines middle matching chunk) rest where
  nodup := (List.nodup_cons.mp h.nodup).2
  free other hother := by
    have hne : other.2 ≠ chunk.2 := fun heq =>
      (List.nodup_cons.mp h.nodup).1 (heq ▸ List.mem_map_of_mem hother)
    rcases matchExact_cases lines middle matching chunk with
      ⟨j, -, -, -, heq⟩ | ⟨-, heq⟩
    · rw [heq, oldForNew_assign, List.getElem?_set_ne (Ne.symm hne)]
      exact h.free other (List.mem_cons_of_mem _ hother)
    · rw [heq]
      exact h.free other (List.mem_cons_of_mem _ hother)

section Fold

variable {rest : List (List UInt8 × ℕ)}

end Fold

end Exact

end LineMatching

section Phases

open LineMatching

variable (lines : List Line) (chunks : List (List UInt8))

/-- The length of the unchanged prefix. -/
def prefixLength : ℕ := matchingLineCount lines chunks

/-- The length of the unchanged suffix, counted after the prefix. -/
def suffixLength : ℕ :=
  matchingLineCount (lines.drop (prefixLength lines chunks)).reverse
    (chunks.drop (prefixLength lines chunks)).reverse

/-- The old lines of the changed middle. -/
def middleOld : List ℕ :=
  List.range' (prefixLength lines chunks)
    (lines.length - suffixLength lines chunks - prefixLength lines chunks)

variable {lines chunks}

end Phases

end Lix.Text
