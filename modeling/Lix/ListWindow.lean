import Mathlib

/-! Windows of lists: the elements from index `start` up to `stop`, as a slice `xs[start..stop]`
reads them, clamped to the list by `take` and `drop`. How a window of a concatenation splits,
how a window of a window is a window, and how adjacent windows join. Copy ranges, slices of
copy programs and chunked buffers are all read through these. -/
namespace Lix.ListWindow

variable {α : Type*}

/-- The window `xs[start..stop]`, clamped to the list. -/
def window (xs : List α) (start stop : ℕ) : List α := (xs.take stop).drop start

@[simp] theorem window_nil (start stop : ℕ) : window ([] : List α) start stop = [] := by
  simp [window]

@[simp] theorem length_window (xs : List α) (start stop : ℕ) :
    (window xs start stop).length = min stop xs.length - start := by
  simp [window]

theorem window_of_le {xs : List α} {start stop : ℕ} (h : stop ≤ start) :
    window xs start stop = [] :=
  List.drop_eq_nil_of_le (by simp; omega)

/-- A window ends at the end of the list at the latest. -/
theorem window_min_length (xs : List α) (start stop : ℕ) :
    window xs start (min stop xs.length) = window xs start stop := by
  unfold window
  rw [← List.take_take, List.take_of_length_le le_rfl]

theorem window_eq_nil_of_min_le {xs : List α} {start stop : ℕ} (h : min stop xs.length ≤ start) :
    window xs start stop = [] :=
  List.eq_nil_of_length_eq_zero (by rw [length_window]; omega)

theorem window_zero (xs : List α) (stop : ℕ) : window xs 0 stop = xs.take stop := by
  simp [window]

theorem window_length (xs : List α) (start : ℕ) : window xs start xs.length = xs.drop start := by
  simp [window]

theorem window_zero_length (xs : List α) : window xs 0 xs.length = xs := by
  simp [window]

/-- A window of a concatenation is the window of each part, the second one shifted. -/
theorem window_append (xs ys : List α) (start stop : ℕ) :
    window (xs ++ ys) start stop =
      window xs start stop ++ window ys (start - xs.length) (stop - xs.length) := by
  unfold window
  rw [List.take_append, List.drop_append, List.length_take]
  by_cases h : stop ≤ xs.length
  · have hzero : stop - xs.length = 0 := by omega
    simp [hzero]
  · rw [min_eq_right (by omega)]

/-- A window of a window is a window. -/
theorem window_window (xs : List α) (offset stop start' stop' : ℕ) :
    window (window xs offset stop) start' stop' =
      window xs (offset + start') (min stop (offset + stop')) := by
  unfold window
  rw [List.take_drop, List.take_take, List.drop_drop, min_comm]

theorem window_eq_nil_of_length_le {xs : List α} {start : ℕ} (h : xs.length ≤ start)
    (stop : ℕ) : window xs start stop = [] :=
  List.drop_eq_nil_of_le (by simp; omega)

/-- The prefix up to `stop` is the prefix up to `start`, then the window between them. -/
theorem take_eq_take_append_window (xs : List α) {start stop : ℕ} (h : start ≤ stop) :
    xs.take stop = xs.take start ++ window xs start stop := by
  obtain ⟨d, rfl⟩ := Nat.exists_eq_add_of_le h
  rw [window, List.drop_take, Nat.add_sub_cancel_left, ← List.take_add]

/-- Adjacent windows join. -/
theorem window_append_window (xs : List α) {a b c : ℕ} (hab : a ≤ b) (hbc : b ≤ c) :
    window xs a b ++ window xs b c = window xs a c := by
  conv_rhs => rw [window, take_eq_take_append_window xs hbc, List.drop_append]
  by_cases hb : b ≤ xs.length
  · rw [List.length_take, min_eq_left hb, Nat.sub_eq_zero_of_le hab, List.drop_zero]
    rfl
  · have hnil : window xs b c = [] := window_eq_nil_of_length_le (by omega) c
    rw [hnil, List.drop_nil, List.append_nil, List.append_nil]
    rfl

/-- The suffix from `start` is the window up to `stop`, then the suffix from `stop`. -/
theorem drop_eq_window_append_drop (xs : List α) {start stop : ℕ} (h : start ≤ stop) :
    xs.drop start = window xs start stop ++ xs.drop stop := by
  by_cases hs : stop ≤ xs.length
  · conv_lhs => rw [← List.take_append_drop stop xs]
    rw [window, List.drop_append_of_le_length (by simp; omega)]
  · rw [window, List.take_of_length_le (by omega), List.drop_eq_nil_of_le (by omega : xs.length ≤ stop),
      List.append_nil]

/-- A window of a suffix is a window of the whole list. -/
theorem window_drop (xs : List α) (k start stop : ℕ) :
    window (xs.drop k) start stop = window xs (k + start) (k + stop) := by
  rw [window, List.take_drop, List.drop_drop, window]

/-- Where the suffix from `start` begins with `ys`, the window of `ys`'s length there is `ys`. -/
theorem window_of_drop_eq {xs ys zs : List α} {start : ℕ} (h : xs.drop start = ys ++ zs) :
    window xs start (start + ys.length) = ys := by
  rw [window, List.drop_take, Nat.add_sub_cancel_left, h, List.take_left]

/-- The `len` elements from `offset` of a list that holds them. -/
theorem length_take_drop_of_add_le {xs : List α} {offset len : ℕ} (h : offset + len ≤ xs.length) :
    ((xs.drop offset).take len).length = len := by
  rw [List.length_take, List.length_drop]
  omega

/-- The window of `len` elements from `start` of a list that holds them. -/
theorem length_window_of_add_le {xs : List α} {start len : ℕ} (h : start + len ≤ xs.length) :
    (window xs start (start + len)).length = len := by
  rw [length_window]
  omega

/-- A nonempty list read at `start` ends within the list. -/
theorem add_length_le_of_drop_eq {xs ys zs : List α} {start : ℕ} (h : xs.drop start = ys ++ zs)
    (hys : ys ≠ []) : start + ys.length ≤ xs.length := by
  have hlength := congrArg List.length h
  rw [List.length_drop, List.length_append] at hlength
  have hpos := List.length_pos_of_ne_nil hys
  omega

/-- Reading past the first piece of a suffix leaves the rest. -/
theorem drop_add_of_drop_eq {xs ys zs : List α} {start : ℕ} (h : xs.drop start = ys ++ zs) :
    xs.drop (start + ys.length) = zs := by
  rw [← List.drop_drop, h, List.drop_left]

/-- The window of length one at an index holds the element there. -/
theorem window_succ {xs : List α} {index : ℕ} {x : α} (h : xs[index]? = some x) :
    window xs index (index + 1) = [x] := by
  rw [window, List.drop_take, Nat.add_sub_cancel_left, List.take_one, List.head?_drop, h]
  rfl

/-- In a run of blocks of one length `n`, the window of the `index`-th block is that block. -/
theorem window_flatMap {β : Type*} {f : β → List α} {n : ℕ} (hlen : ∀ b, (f b).length = n) :
    ∀ {bs : List β} {index : ℕ} (h : index < bs.length),
      window (bs.flatMap f) (n * index) (n * index + n) = f bs[index]
  | b :: bs, 0, _ => by
    rw [List.flatMap_cons, window_append, Nat.mul_zero, Nat.zero_add, hlen, Nat.sub_self,
      window_of_le (Nat.zero_le _), List.append_nil, ← hlen b, window_zero_length]
    rfl
  | b :: bs, index + 1, h => by
    have hle : n ≤ n * (index + 1) := Nat.le_mul_of_pos_right n (Nat.succ_pos index)
    rw [List.flatMap_cons, window_append, hlen, window_eq_nil_of_length_le (by rw [hlen]; exact hle),
      List.nil_append, Nat.mul_succ, Nat.add_sub_cancel, Nat.add_right_comm, Nat.add_sub_cancel,
      window_flatMap hlen (by simpa using h)]
    rfl

/-- The `index`-th of lists of one length, read from their concatenation. -/
theorem window_flatten {n : ℕ} :
    ∀ {xs : List (List α)} {index : ℕ}, (∀ x ∈ xs, x.length = n) → (h : index < xs.length) →
      window xs.flatten (n * index) (n * index + n) = xs[index]
  | x :: xs, 0, hlen, _ => by
    have hx := hlen x List.mem_cons_self
    rw [List.flatten_cons, window_append, Nat.mul_zero, Nat.zero_add, hx, Nat.sub_self,
      window_of_le (Nat.zero_le _), List.append_nil, ← hx, window_zero_length]
    rfl
  | x :: xs, index + 1, hlen, h => by
    have hx := hlen x List.mem_cons_self
    have hle : n ≤ n * (index + 1) := Nat.le_mul_of_pos_right n (Nat.succ_pos index)
    rw [List.flatten_cons, window_append, hx, window_eq_nil_of_length_le (by rw [hx]; exact hle),
      List.nil_append, Nat.mul_succ, Nat.add_sub_cancel, Nat.add_right_comm, Nat.add_sub_cancel,
      window_flatten (fun y hy => hlen y (List.mem_cons_of_mem _ hy)) (by simpa using h)]
    rfl

theorem length_flatten_of_length {n : ℕ} :
    ∀ {xs : List (List α)}, (∀ x ∈ xs, x.length = n) → xs.flatten.length = xs.length * n
  | [], _ => by simp
  | x :: xs, hlen => by
    rw [List.flatten_cons, List.length_append, hlen x List.mem_cons_self,
      length_flatten_of_length (fun y hy => hlen y (List.mem_cons_of_mem _ hy)), List.length_cons,
      Nat.succ_mul, Nat.add_comm]

/-- Nonempty lists are no more than the elements of their concatenation. -/
theorem length_le_length_flatten :
    ∀ {xs : List (List α)}, (∀ x ∈ xs, x ≠ []) → xs.length ≤ xs.flatten.length
  | [], _ => le_refl 0
  | x :: xs, hne => by
    have hx := List.length_pos_of_ne_nil (hne x List.mem_cons_self)
    have hrest := length_le_length_flatten (fun y hy => hne y (List.mem_cons_of_mem _ hy))
    rw [List.flatten_cons, List.length_append, List.length_cons]
    omega

section Splice

/-- A replacement of the window `[offset, offset + deleteLen)` of a list by `insert`. -/
structure Splice (α : Type*) where
  offset : ℕ
  deleteLen : ℕ
  insert : List α

/-- `xs` from `cursor` on, with each splice's window replaced by its insert: the bytes up to a
splice are copied, its insert is written, and copying resumes past what it deletes. Splices
are expected sorted and apart; out of order, a window is empty. -/
def spliceFrom (xs : List α) : ℕ → List (Splice α) → List α
  | cursor, [] => xs.drop cursor
  | cursor, splice :: rest =>
    window xs cursor splice.offset ++ splice.insert ++
      spliceFrom xs (splice.offset + splice.deleteLen) rest

@[simp] theorem spliceFrom_nil (xs : List α) (cursor : ℕ) : spliceFrom xs cursor [] = xs.drop cursor :=
  rfl

@[simp] theorem spliceFrom_cons (xs : List α) (cursor : ℕ) (splice : Splice α) (rest : List (Splice α)) :
    spliceFrom xs cursor (splice :: rest) = window xs cursor splice.offset ++ splice.insert ++
      spliceFrom xs (splice.offset + splice.deleteLen) rest :=
  rfl

/-- One splice replaces its window and keeps what stands around it. -/
theorem spliceFrom_single (xs : List α) (splice : Splice α) :
    spliceFrom xs 0 [splice] =
      xs.take splice.offset ++ splice.insert ++ xs.drop (splice.offset + splice.deleteLen) := by
  rw [spliceFrom_cons, spliceFrom_nil, window_zero]

/-- Splices sorted, apart and within `length`, from `cursor` on. -/
def FitWithin (length : ℕ) : ℕ → List (Splice α) → Prop
  | _, [] => True
  | cursor, splice :: rest => cursor ≤ splice.offset ∧ splice.offset + splice.deleteLen ≤ length ∧
      FitWithin length (splice.offset + splice.deleteLen) rest

/-- Fitting splices delete no more than what lies past the cursor. -/
theorem sum_deleteLen_le {length : ℕ} : ∀ {cursor : ℕ} {splices : List (Splice α)},
    cursor ≤ length → FitWithin length cursor splices →
    cursor + (splices.map Splice.deleteLen).sum ≤ length
  | _, [], hc, _ => by simpa using hc
  | _, splice :: rest, _, ⟨hcursor, hend, hrest⟩ => by
    have := sum_deleteLen_le hend hrest
    simp only [List.map_cons, List.sum_cons]
    omega

/-- Fitting splices change the length by what they insert less what they delete. -/
theorem length_spliceFrom {xs : List α} : ∀ {cursor : ℕ} {splices : List (Splice α)},
    cursor ≤ xs.length → FitWithin xs.length cursor splices →
    (spliceFrom xs cursor splices).length + cursor + (splices.map Splice.deleteLen).sum =
      xs.length + (splices.map fun splice => splice.insert.length).sum
  | _, [], hc, _ => by simp; omega
  | cursor, splice :: rest, _, ⟨hcursor, hend, hrest⟩ => by
    have := length_spliceFrom hend hrest
    simp only [spliceFrom_cons, List.length_append, length_window, List.map_cons, List.sum_cons]
    omega

end Splice

end Lix.ListWindow
