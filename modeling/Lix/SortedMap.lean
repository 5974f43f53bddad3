import Mathlib

/-! A finite map held as its entries in strictly increasing key order, the way a `BTreeMap`
iterates them or a vector kept sorted by key stores them. Lookup, insertion and removal by key;
the result of a binary search by key, and how writing at the index it returns replaces, removes
or inserts an entry; and the sum of the values whose keys satisfy a predicate, with how each
operation changes it. -/
namespace Lix.SortedMap

variable {κ ν : Type*} [LinearOrder κ]

/-- Entries strictly increasing by key. -/
def Sorted (entries : List (κ × ν)) : Prop := entries.Pairwise fun a b => a.1 < b.1

/-- The value at `key`. -/
def get? (entries : List (κ × ν)) (key : κ) : Option ν := (entries.find? (·.1 = key)).map (·.2)

/-- A new key goes in its place; the value of a key already there is replaced. -/
def insert (key : κ) (value : ν) : List (κ × ν) → List (κ × ν)
  | [] => [(key, value)]
  | entry :: rest =>
    if key < entry.1 then (key, value) :: entry :: rest
    else if key = entry.1 then (key, value) :: rest
    else entry :: insert key value rest

def erase (key : κ) (entries : List (κ × ν)) : List (κ × ν) := entries.filter (·.1 ≠ key)

/-- A binary search by key, by its specified result: `.ok` with the index of the entry with
`key`, or `.error` with the index where such an entry would be inserted to keep the order. -/
def search : List (κ × ν) → κ → Except ℕ ℕ
  | [], _ => .error 0
  | entry :: rest, key =>
    if entry.1 = key then .ok 0
    else if key < entry.1 then .error 0
    else
      match search rest key with
      | .ok index => .ok (index + 1)
      | .error index => .error (index + 1)

@[simp] theorem sorted_nil : Sorted ([] : List (κ × ν)) := List.Pairwise.nil

theorem sorted_cons {entry : κ × ν} {rest : List (κ × ν)} :
    Sorted (entry :: rest) ↔ (∀ e ∈ rest, entry.1 < e.1) ∧ Sorted rest :=
  List.pairwise_cons

@[simp] theorem get?_nil (key : κ) : get? ([] : List (κ × ν)) key = none := rfl

theorem get?_cons (entry : κ × ν) (rest : List (κ × ν)) (key : κ) :
    get? (entry :: rest) key = if entry.1 = key then some entry.2 else get? rest key := by
  unfold get?
  by_cases h : entry.1 = key <;> simp [h]

theorem get?_eq_none_iff {entries : List (κ × ν)} {key : κ} :
    get? entries key = none ↔ ∀ e ∈ entries, e.1 ≠ key := by
  simp [get?, List.find?_eq_none]

theorem get?_eq_none_of_lt {entries : List (κ × ν)} {key : κ} (h : ∀ e ∈ entries, key < e.1) :
    get? entries key = none :=
  get?_eq_none_iff.mpr fun e he => (h e he).ne'

theorem mem_of_get? {entries : List (κ × ν)} {key : κ} {value : ν} (h : get? entries key = some value) :
    (key, value) ∈ entries := by
  obtain ⟨entry, hfind, rfl⟩ := Option.map_eq_some_iff.mp h
  have hkey : entry.1 = key := by simpa using List.find?_some hfind
  rw [← hkey]
  exact List.mem_of_find?_eq_some hfind

theorem mem_insert {key : κ} {value : ν} {e : κ × ν} :
    ∀ {entries : List (κ × ν)}, e ∈ insert key value entries → e = (key, value) ∨ e ∈ entries
  | [], h => by simpa [insert] using h
  | entry :: rest, h => by
    unfold insert at h
    split_ifs at h
    · simpa using h
    · exact (List.mem_cons.mp h).imp id (List.mem_cons_of_mem _)
    · rcases List.mem_cons.mp h with rfl | h
      · exact .inr List.mem_cons_self
      · exact (mem_insert h).imp id (List.mem_cons_of_mem _)

theorem forall_mem_insert {key : κ} {value : ν} {entries : List (κ × ν)} {P : κ × ν → Prop}
    (hnew : P (key, value)) (hold : ∀ e ∈ entries, P e) : ∀ e ∈ insert key value entries, P e :=
  fun e he => (mem_insert he).elim (fun h => h ▸ hnew) (hold e)

theorem sorted_insert (key : κ) (value : ν) :
    ∀ {entries : List (κ × ν)}, Sorted entries → Sorted (insert key value entries)
  | [], _ => List.pairwise_singleton _ _
  | entry :: rest, h => by
    rw [sorted_cons] at h
    unfold insert
    split_ifs with hlt heq
    · refine sorted_cons.mpr ⟨fun e he => ?_, sorted_cons.mpr h⟩
      rcases List.mem_cons.mp he with rfl | he
      · exact hlt
      · exact hlt.trans (h.1 e he)
    · exact sorted_cons.mpr ⟨fun e he => heq ▸ h.1 e he, h.2⟩
    · -- the key goes behind `entry`
      have hgt : entry.1 < key := lt_of_le_of_ne (not_lt.mp hlt) (Ne.symm heq)
      refine sorted_cons.mpr ⟨fun e he => ?_, sorted_insert key value h.2⟩
      rcases mem_insert he with rfl | he
      · exact hgt
      · exact h.1 e he

theorem get?_insert (key : κ) (value : ν) (other : κ) :
    ∀ {entries : List (κ × ν)}, Sorted entries →
      get? (insert key value entries) other = if key = other then some value else get? entries other
  | [], _ => by simp [insert, get?_cons]
  | entry :: rest, h => by
    rw [sorted_cons] at h
    by_cases hlt : key < entry.1
    · rw [insert, if_pos hlt]
      simp only [get?_cons]
    · by_cases heq : key = entry.1
      · rw [insert, if_neg hlt, if_pos heq]
        subst heq
        by_cases hko : entry.1 = other <;> simp [get?_cons, hko]
      · rw [insert, if_neg hlt, if_neg heq, get?_cons, get?_cons, get?_insert key value other h.2]
        by_cases hentry : entry.1 = other
        · have hko : key ≠ other := fun hk => heq (hk.trans hentry.symm)
          rw [if_pos hentry, if_neg hko, if_pos hentry]
        · rw [if_neg hentry, if_neg hentry]

/-- Past the greatest key, insertion appends. -/
theorem insert_of_lt {key : κ} {value : ν} :
    ∀ {entries : List (κ × ν)}, (∀ e ∈ entries, e.1 < key) →
      insert key value entries = entries ++ [(key, value)]
  | [], _ => rfl
  | entry :: rest, h => by
    have hlt := h entry List.mem_cons_self
    rw [insert, if_neg (not_lt.mpr hlt.le), if_neg hlt.ne', List.cons_append,
      insert_of_lt fun e he => h e (List.mem_cons_of_mem _ he)]

theorem get?_erase (key other : κ) :
    ∀ {entries : List (κ × ν)}, get? (erase key entries) other =
      if key = other then none else get? entries other
  | [] => by simp [erase]
  | entry :: rest => by
    have ih : get? (erase key rest) other = if key = other then none else get? rest other :=
      get?_erase key other
    unfold erase at ih ⊢
    rw [List.filter_cons]
    by_cases hne : entry.1 = key
    · -- the entry is removed
      rw [if_neg (by simpa using hne), ih, get?_cons]
      by_cases hko : key = other
      · rw [if_pos hko, if_pos hko]
      · rw [if_neg hko, if_neg hko, if_neg (hne ▸ hko)]
    · rw [if_pos (by simpa using hne), get?_cons, get?_cons, ih]
      by_cases hentry : entry.1 = other
      · rw [if_pos hentry, if_neg fun hk => hne (hentry.trans hk.symm), if_pos hentry]
      · rw [if_neg hentry, if_neg hentry]

/-- The entries with a key are the one entry of the key, if any. -/
theorem filter_key_eq (key : κ) :
    ∀ {entries : List (κ × ν)}, Sorted entries →
      (entries.filter fun e => e.1 = key) = ((get? entries key).map fun value => (key, value)).toList
  | [], _ => rfl
  | entry :: rest, h => by
    rw [sorted_cons] at h
    by_cases heq : entry.1 = key
    · -- no later entry has the key
      have hrest : (rest.filter fun e => e.1 = key) = [] :=
        List.filter_eq_nil_iff.mpr fun e he => by simpa [← heq] using (h.1 e he).ne'
      rw [List.filter_cons, if_pos (by simpa using heq), hrest, get?_cons, if_pos heq]
      simp [← heq]
    · rw [List.filter_cons, if_neg (by simpa using heq), filter_key_eq key h.2, get?_cons,
        if_neg heq]

section Search

variable {entries : List (κ × ν)} {key : κ} {index : ℕ}

theorem search_eq_ok (h : Sorted entries) (hs : search entries key = .ok index) :
    ∃ value, entries[index]? = some (key, value) := by
  induction entries generalizing index with
  | nil => cases hs
  | cons entry rest ih =>
    unfold search at hs
    split_ifs at hs with heq hlt
    · cases hs
      exact ⟨entry.2, by simp [← heq]⟩
    · split at hs
      · rename_i index' hrest
        cases hs
        simpa using ih (sorted_cons.mp h).2 hrest
      · cases hs

theorem get?_of_getElem? (h : Sorted entries) {value : ν}
    (hi : entries[index]? = some (key, value)) : get? entries key = some value := by
  induction entries generalizing index with
  | nil => simp at hi
  | cons entry rest ih =>
    rw [sorted_cons] at h
    cases index with
    | zero =>
      rw [List.getElem?_cons_zero, Option.some_inj] at hi
      subst hi
      simp [get?_cons]
    | succ index =>
      rw [List.getElem?_cons_succ] at hi
      have hlt : entry.1 < key := h.1 _ (List.mem_of_getElem? hi)
      rw [get?_cons, if_neg hlt.ne, ih h.2 hi]

/-- Writing a new value at the index of a key replaces the key's value. -/
theorem set_of_getElem? (h : Sorted entries) {value : ν} (hi : entries[index]? = some (key, value))
    (value' : ν) : entries.set index (key, value') = insert key value' entries := by
  induction entries generalizing index with
  | nil => simp at hi
  | cons entry rest ih =>
    rw [sorted_cons] at h
    cases index with
    | zero =>
      rw [List.getElem?_cons_zero, Option.some_inj] at hi
      subst hi
      simp [insert]
    | succ index =>
      rw [List.getElem?_cons_succ] at hi
      have hlt : entry.1 < key := h.1 _ (List.mem_of_getElem? hi)
      rw [List.set_cons_succ, insert, if_neg (not_lt.mpr hlt.le), if_neg hlt.ne', ih h.2 hi]

/-- Removing the entry at the index of a key removes the key. -/
theorem eraseIdx_of_getElem? (h : Sorted entries) {value : ν}
    (hi : entries[index]? = some (key, value)) : entries.eraseIdx index = erase key entries := by
  induction entries generalizing index with
  | nil => simp at hi
  | cons entry rest ih =>
    rw [sorted_cons] at h
    cases index with
    | zero =>
      rw [List.getElem?_cons_zero, Option.some_inj] at hi
      subst hi
      have hrest : erase key rest = rest :=
        List.filter_eq_self.mpr fun e he => by simpa using (h.1 e he).ne'
      rw [List.eraseIdx_cons_zero, erase, List.filter_cons, if_neg (by simp)]
      exact hrest.symm
    | succ index =>
      rw [List.getElem?_cons_succ] at hi
      have hlt : entry.1 < key := h.1 _ (List.mem_of_getElem? hi)
      rw [List.eraseIdx_cons_succ, ih h.2 hi, erase, erase, List.filter_cons, if_pos (by simpa using hlt.ne)]

theorem search_eq_error (h : Sorted entries) (hs : search entries key = .error index) :
    get? entries key = none ∧ ∀ value, entries.insertIdx index (key, value) = insert key value entries := by
  induction entries generalizing index with
  | nil =>
    cases hs
    exact ⟨rfl, fun _ => rfl⟩
  | cons entry rest ih =>
    rw [sorted_cons] at h
    unfold search at hs
    split_ifs at hs with heq hlt
    · cases hs
      refine ⟨get?_eq_none_of_lt fun e he => ?_, fun value => ?_⟩
      · rcases List.mem_cons.mp he with rfl | he
        · exact hlt
        · exact hlt.trans (h.1 e he)
      · rw [List.insertIdx_zero, insert, if_pos hlt]
    · split at hs
      · cases hs
      · rename_i index' hrest
        cases hs
        have hgt : entry.1 < key := lt_of_le_of_ne (not_lt.mp hlt) heq
        obtain ⟨hnone, hins⟩ := ih h.2 hrest
        refine ⟨by rw [get?_cons, if_neg heq, hnone], fun value => ?_⟩
        rw [List.insertIdx_succ_cons, insert, if_neg hlt, if_neg hgt.ne', hins]

end Search

section Sums

variable {α : Type*} [AddCommGroup α] (p : κ → Prop) [DecidablePred p]

/-- The sum of the values whose keys satisfy `p`. -/
def sumWhere (entries : List (κ × α)) : α := ((entries.filter fun e => p e.1).map (·.2)).sum

omit [LinearOrder κ] in
@[simp] theorem sumWhere_nil : sumWhere p ([] : List (κ × α)) = 0 := rfl

omit [LinearOrder κ] in
theorem sumWhere_cons (entry : κ × α) (rest : List (κ × α)) :
    sumWhere p (entry :: rest) = (if p entry.1 then entry.2 else 0) + sumWhere p rest := by
  unfold sumWhere
  by_cases h : p entry.1 <;> simp [h]

omit [LinearOrder κ] in
theorem sumWhere_eq_zero {entries : List (κ × α)} (h : ∀ e ∈ entries, ¬p e.1) :
    sumWhere p entries = 0 := by
  unfold sumWhere
  rw [List.filter_eq_nil_iff.mpr fun e he => by simpa using h e he]
  rfl

/-- Inserting a value moves the sum by the change of the key's value, if the key counts. -/
theorem sumWhere_insert (key : κ) (value : α) :
    ∀ {entries : List (κ × α)}, Sorted entries →
      sumWhere p (insert key value entries) =
        sumWhere p entries + if p key then value - (get? entries key).getD 0 else 0
  | [], _ => by by_cases hp : p key <;> simp [insert, sumWhere_cons, hp]
  | entry :: rest, h => by
    rw [sorted_cons] at h
    by_cases hlt : key < entry.1
    · have hnone : get? (entry :: rest) key = none := get?_eq_none_of_lt fun e he => by
        rcases List.mem_cons.mp he with rfl | he
        · exact hlt
        · exact hlt.trans (h.1 e he)
      rw [insert, if_pos hlt, sumWhere_cons, hnone]
      by_cases hp : p key <;> simp [hp, add_comm]
    · by_cases heq : key = entry.1
      · rw [insert, if_neg hlt, if_pos heq, sumWhere_cons, sumWhere_cons, get?_cons, if_pos heq.symm]
        subst heq
        by_cases hp : p entry.1
        · simp only [hp, if_true, Option.getD_some]
          abel
        · simp [hp]
      · rw [insert, if_neg hlt, if_neg heq, sumWhere_cons, sumWhere_cons, sumWhere_insert key value h.2,
          get?_cons, if_neg (Ne.symm heq), add_assoc]

/-- Summed over one key, the values are the key's value. -/
theorem sumWhere_eq_key (key : κ) {entries : List (κ × α)} (h : Sorted entries) :
    sumWhere (· = key) entries = (get? entries key).getD 0 := by
  unfold sumWhere
  rw [filter_key_eq key h]
  cases get? entries key <;> simp

/-- Erasing a key takes its value out of the sum, if the key counts. -/
theorem sumWhere_erase (key : κ) :
    ∀ {entries : List (κ × α)}, Sorted entries →
      sumWhere p (erase key entries) =
        sumWhere p entries - if p key then (get? entries key).getD 0 else 0
  | [], _ => by simp [erase]
  | entry :: rest, h => by
    rw [sorted_cons] at h
    have ih := sumWhere_erase key h.2
    unfold erase at ih ⊢
    rw [List.filter_cons]
    by_cases heq : entry.1 = key
    · -- the entry is the key's, and no later entry has the key
      have hnone : get? rest key = none := get?_eq_none_of_lt fun e he => heq ▸ h.1 e he
      rw [if_neg (by simpa using heq), ih, sumWhere_cons, get?_cons, if_pos heq, hnone, heq]
      by_cases hp : p key <;> simp [hp]
    · rw [if_pos (by simpa using heq), sumWhere_cons, sumWhere_cons, ih, get?_cons, if_neg heq,
        add_sub_assoc]

end Sums

end Lix.SortedMap
