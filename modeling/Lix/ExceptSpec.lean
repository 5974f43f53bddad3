import Mathlib

/-! Inversion rules for `Except`: a successful `map` or `bind` came from a successful
first computation. Decoders and planners written as chains of `Except` steps are
taken apart with these instead of unfolding every step. -/
namespace Lix.ExceptSpec

variable {ε α β : Type*}

@[simp] theorem map_eq_ok {f : α → β} {x : Except ε α} {b : β} :
    x.map f = .ok b ↔ ∃ a, x = .ok a ∧ f a = b := by
  cases x <;> simp [Except.map]

@[simp] theorem map_ok (f : α → β) (a : α) : (Except.ok a : Except ε α).map f = .ok (f a) := rfl

@[simp] theorem map_error (f : α → β) (e : ε) :
    (Except.error e : Except ε α).map f = .error e := rfl

theorem bind_eq_ok {f : α → Except ε β} {x : Except ε α} {b : β} :
    x.bind f = .ok b ↔ ∃ a, x = .ok a ∧ f a = .ok b := by
  cases x <;> simp [Except.bind]

/-- A guard of a `do` block, `if c then throw e` followed by the rest: the block succeeds when
the guard does not fire and the rest succeeds. -/
theorem ite_throw_eq_ok {ε γ δ : Type} {c : Prop} [Decidable c] {e : ε} {f : γ → Except ε δ}
    {x : Except ε δ} {b : δ} : (if c then throw e >>= f else x) = .ok b ↔ ¬c ∧ x = .ok b := by
  by_cases hc : c <;> simp [hc, throw, throwThe, MonadExceptOf.throw, bind, Except.bind]

section MapM

/-! A fallible map over a list that fails exactly where a partial function is undefined
succeeds with the defined values, and fails otherwise. -/

theorem pure_eq_ok {a b : α} : (pure a : Except ε α) = .ok b ↔ a = b := by
  simp [pure, Except.pure]

theorem option_mapM_eq_some_iff {g : α → Option β} {l : List α} {bs : List β} :
    l.mapM g = some bs ↔ (∀ a ∈ l, (g a).isSome) ∧ bs = l.filterMap g := by
  induction l generalizing bs with
  | nil =>
    simp only [List.mapM_nil, List.filterMap_nil, Option.pure_def, Option.some.injEq,
      List.not_mem_nil, IsEmpty.forall_iff, implies_true, true_and]
    exact eq_comm
  | cons a l ih =>
    rw [List.mapM_cons]
    cases hga : g a with
    | none => simp [hga]
    | some b =>
      simp only [Option.bind_eq_bind, Option.bind_some, Option.pure_def, Option.bind_eq_some_iff,
        Option.some.injEq]
      constructor
      · rintro ⟨bs', hbs, rfl⟩
        obtain ⟨hall, rfl⟩ := ih.mp hbs
        refine ⟨?_, by simp [hga]⟩
        intro x hx
        rcases List.mem_cons.mp hx with rfl | hx
        · simp [hga]
        · exact hall x hx
      · rintro ⟨hall, rfl⟩
        refine ⟨l.filterMap g, ih.mpr ⟨fun x hx => hall x (List.mem_cons_of_mem a hx), rfl⟩, ?_⟩
        simp [hga]

variable {f : α → Except ε β} {g : α → Option β}

theorem mapM_eq_ok_iff (hfg : ∀ a b, f a = .ok b ↔ g a = some b) {l : List α} {bs : List β} :
    l.mapM f = .ok bs ↔ l.mapM g = some bs := by
  induction l generalizing bs with
  | nil => simp [List.mapM_nil, pure, Except.pure]
  | cons a l ih =>
    rw [List.mapM_cons, List.mapM_cons]
    simp only [Option.bind_eq_bind, Option.bind_eq_some_iff, Option.pure_def, Option.some.injEq]
    constructor
    · intro h
      obtain ⟨b, hb, h⟩ := bind_eq_ok.mp h
      obtain ⟨bs', hbs, hcons⟩ := bind_eq_ok.mp h
      exact ⟨b, (hfg a b).mp hb, bs', ih.mp hbs, pure_eq_ok.mp hcons⟩
    · rintro ⟨b, hb, bs', hbs, rfl⟩
      exact bind_eq_ok.mpr ⟨b, (hfg a b).mpr hb, bind_eq_ok.mpr ⟨bs', ih.mpr hbs, rfl⟩⟩

theorem mapM_eq_ok_iff_filterMap (hfg : ∀ a b, f a = .ok b ↔ g a = some b) {l : List α}
    {bs : List β} : l.mapM f = .ok bs ↔ (∀ a ∈ l, (g a).isSome) ∧ bs = l.filterMap g := by
  rw [mapM_eq_ok_iff hfg, option_mapM_eq_some_iff]

end MapM

section FoldlM

/-! An invariant of the prefix folded so far carries a fallible left fold: it holds after a fold
that succeeds, and a fold succeeds when every step from a state that satisfies it does. -/

variable {f : β → α → Except ε β} (P : List α → β → Prop)

/-- A first step that succeeds hands its result on to the rest of the fold. -/
theorem foldlM_cons_of_ok {init b : β} {x : α} (h : f init x = .ok b) (xs : List α) :
    (x :: xs).foldlM f init = xs.foldlM f b := by
  rw [List.foldlM_cons, h]
  rfl

theorem foldlM_invariant (hstep : ∀ done x b b', P done b → f b x = .ok b' → P (done ++ [x]) b')
    {xs done : List α} {init r : β} (h0 : P done init) (h : xs.foldlM f init = .ok r) :
    P (done ++ xs) r := by
  induction xs generalizing done init with
  | nil =>
    rw [List.foldlM_nil] at h
    cases h
    rwa [List.append_nil]
  | cons x xs ih =>
    rw [List.foldlM_cons] at h
    obtain ⟨b, hb, h⟩ := bind_eq_ok.mp h
    rw [← List.singleton_append, ← List.append_assoc]
    exact ih (hstep done x init b h0 hb) h

theorem foldlM_isOk (hstep : ∀ done x b b', P done b → f b x = .ok b' → P (done ++ [x]) b')
    {xs done : List α} {init : β} (hok : ∀ done b, ∀ x ∈ xs, P done b → ∃ b', f b x = .ok b')
    (h0 : P done init) : ∃ r, xs.foldlM f init = .ok r := by
  induction xs generalizing done init with
  | nil => exact ⟨init, rfl⟩
  | cons x xs ih =>
    obtain ⟨b, hb⟩ := hok done init x List.mem_cons_self h0
    obtain ⟨r, hr⟩ := ih (fun done b y hy => hok done b y (List.mem_cons_of_mem x hy))
      (hstep done x init b h0 hb)
    refine ⟨r, ?_⟩
    rw [List.foldlM_cons]
    exact bind_eq_ok.mpr ⟨b, hb, hr⟩

end FoldlM

end Lix.ExceptSpec
