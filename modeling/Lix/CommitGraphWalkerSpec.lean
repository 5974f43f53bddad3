import Lix.CommitGraphBestCommon
import Lix.Ancestry

/-! `best_common_ids` computes the best common ancestors exactly, on every commit graph whose
parent links point to stored commits of smaller generation. The proof is an invariant of
the walk over the list of commits popped so far. The paint of a commit records the heads
reaching it through popped children, and whether a popped child is a common ancestor.
Every reached commit not yet popped lies below a queued one, and the best list holds the
popped best ancestors. When a commit is popped, all its reached children have been popped
before it, so its paint is final and says exactly whether it is a best common ancestor.
When the walk stops early, every queued commit is stale, so no best ancestor is left
below the queue. -/
namespace Lix.CommitGraph
open KeyCodec TrackedState SortedWalk Ancestry

/-- Every stored commit's parents are stored, at a smaller generation. -/
def ParentsBelow (reader : CommitGraphStoreReader) : Prop :=
  ∀ node ∈ reader.nodes, reader.loadNode node.commitId = some node →
    ∀ p ∈ node.parentCommitIds, (reader.loadNode p).any (·.generation < node.generation) = true

instance (reader : CommitGraphStoreReader) : Decidable (ParentsBelow reader) := by
  unfold ParentsBelow
  infer_instance

section Graph

variable {reader : CommitGraphStoreReader}

theorem parent_loaded (hwf : ParentsBelow reader) {c p : CommitId} {node : CommitGraphNode}
    (h : reader.loadNode c = some node) (hp : p ∈ node.parentCommitIds) :
    ∃ parent, reader.loadNode p = some parent ∧ parent.generation < node.generation := by
  obtain ⟨hmem, hid⟩ := CommitGraphStoreReader.mem_of_loadNode h
  have hany := hwf node hmem (hid ▸ h) p hp
  cases hload : reader.loadNode p with
  | none => rw [hload] at hany; cases hany
  | some parent =>
    rw [hload, Option.any_some, decide_eq_true_iff] at hany
    exact ⟨parent, rfl, hany⟩

/-- The generation is a rank for the parent links. -/
theorem generation_lt_of_mem_parents (hwf : ParentsBelow reader) (a b : CommitId)
    (hb : b ∈ reader.parents a) : reader.generation b < reader.generation a := by
  cases hload : reader.loadNode a with
  | none =>
    rw [CommitGraphStoreReader.parents, hload] at hb
    cases hb
  | some node =>
    rw [CommitGraphStoreReader.parents_of_loadNode hload] at hb
    obtain ⟨parent, hparent, hlt⟩ := parent_loaded hwf hload hb
    rw [CommitGraphStoreReader.generation_of_loadNode hload,
      CommitGraphStoreReader.generation_of_loadNode hparent]
    exact hlt

/-- Everything reached from a stored commit is stored. -/
theorem loaded_of_ancestor (hwf : ParentsBelow reader) {a b : CommitId}
    (ha : (reader.loadNode a).isSome) (h : Ancestor reader.parents a b) :
    (reader.loadNode b).isSome := by
  induction h with
  | refl => exact ha
  | tail _ hcd ih =>
    rename_i c d _
    obtain ⟨node, hnode⟩ := Option.isSome_iff_exists.mp ih
    rw [CommitGraphStoreReader.parents_of_loadNode hnode] at hcd
    obtain ⟨parent, hparent, -⟩ := parent_loaded hwf hnode hcd
    rw [hparent]
    rfl

/-- A commit below another sorts below it as a queue key, or is it. -/
theorem key_isLE_of_ancestor (hwf : ParentsBelow reader) {x d : CommitId}
    (h : Ancestor reader.parents x d) :
    (compare (reader.generation d, d) (reader.generation x, x)).isLE := by
  by_cases hxd : x = d
  · subst hxd
    rw [Std.ReflOrd.compare_self]
    rfl
  · have hlt := rank_lt_of_ancestor _ (generation_lt_of_mem_parents hwf) h hxd
    rw [compare_key_of_generation_lt d x hlt]
    rfl

end Graph

section Invariant

/-- Reached from one of the two heads. -/
def Reached (reader : CommitGraphStoreReader) (left right c : CommitId) : Prop :=
  Ancestor reader.parents left c ∨ Ancestor reader.parents right c

/-- The paint one head leaves: on itself, and on every parent of a popped commit it reaches. -/
def HeadPaint (reader : CommitGraphStoreReader) (popped : List CommitId) (head : CommitId)
    (colors : CommitId → UInt8) (bit : ℕ) : Prop :=
  ∀ d, hasColor (colors d) bit = true ↔
    d = head ∨ ∃ e ∈ popped, d ∈ reader.parents e ∧ Ancestor reader.parents head e

/-- The state of the walk after the commits `popped` left the queue. -/
structure PaintInv (reader : CommitGraphStoreReader) (left right : CommitId)
    (popped : List CommitId) (s : PaintState) : Prop where
  bound : WalkBound reader popped s
  reached : ∀ d ∈ popped, Reached reader left right d
  queued : ∀ q ∈ s.queue, q.1 = reader.generation q.2 ∧ Reached reader left right q.2
  /-- Every reached commit not yet popped lies below a queued one. -/
  frontier : ∀ d, Reached reader left right d → d ∉ popped →
    ∃ x, (reader.generation x, x) ∈ s.queue ∧ Ancestor reader.parents x d
  leftPaint : HeadPaint reader popped left s.colors 0
  rightPaint : HeadPaint reader popped right s.colors 1
  /-- Stale below a popped common ancestor, and on a popped common ancestor itself. -/
  stalePaint : ∀ d, hasColor (s.colors d) 2 = true ↔
    (∃ e ∈ popped, d ∈ reader.parents e ∧ CommonAncestor reader.parents left right e) ∨
      (d ∈ popped ∧ CommonAncestor reader.parents left right d)
  nonStale : ∀ x, x ∈ s.nonStaleQueued ↔
    (reader.generation x, x) ∈ s.queue ∧ hasColor (s.colors x) 2 = false
  best : ∀ c, c ∈ s.best ↔ c ∈ popped ∧ BestCommonAncestor reader.parents left right c

variable {reader : CommitGraphStoreReader} {left right : CommitId}
  {popped : List CommitId} {s : PaintState}

theorem PaintInv.not_mem_popped (hinv : PaintInv reader left right popped s) {x : CommitId}
    (hx : (reader.generation x, x) ∈ s.queue) : x ∉ popped := by
  intro hmem
  have hlt := hinv.bound.below _ hx x hmem
  rw [Std.ReflOrd.compare_self] at hlt
  cases hlt

/-- A reached commit above the popped key was popped before. -/
theorem PaintInv.mem_popped_of_lt (hwf : ParentsBelow reader)
    (hinv : PaintInv reader left right popped s) {g : ℕ} {c : CommitId}
    {queue : OrderedSet (ℕ × CommitId)} (hpop : s.queue.popLast = some ((g, c), queue))
    {d : CommitId} (hd : Reached reader left right d)
    (hlt : compare (g, c) (reader.generation d, d) = .lt) : d ∈ popped := by
  obtain ⟨-, hmax, -⟩ := OrderedSet.popLast_eq_some hpop
  by_contra hnot
  obtain ⟨x, hx, hxd⟩ := hinv.frontier d hd hnot
  have hdx := key_isLE_of_ancestor hwf hxd
  have hxc : (compare (reader.generation x, x) (g, c)).isLE := by
    by_cases hxeq : (reader.generation x, x) = (g, c)
    · rw [hxeq, Std.ReflOrd.compare_self]
      rfl
    · rw [hmax _ hx hxeq]
      rfl
  have hself := Std.TransCmp.lt_of_lt_of_isLE hlt (Std.TransOrd.isLE_trans hdx hxc)
  rw [Std.ReflOrd.compare_self] at hself
  cases hself

/-- Every reached child of the popped commit was popped before it. -/
theorem PaintInv.child_mem_popped (hwf : ParentsBelow reader)
    (hinv : PaintInv reader left right popped s) {g : ℕ} {c : CommitId}
    {queue : OrderedSet (ℕ × CommitId)} (hpop : s.queue.popLast = some ((g, c), queue))
    (hgc : g = reader.generation c) {e : CommitId} (he : Reached reader left right e)
    (hce : c ∈ reader.parents e) : e ∈ popped := by
  apply hinv.mem_popped_of_lt hwf hpop he
  rw [hgc]
  exact compare_key_of_generation_lt c e (generation_lt_of_mem_parents hwf e c hce)

/-- A head's paint on the popped commit is final: it says whether the head reaches it. -/
theorem headPaint_popped {head c : CommitId} {colors : CommitId → UInt8} {bit : ℕ}
    (hpaint : HeadPaint reader popped head colors bit)
    (hchild : ∀ e, Ancestor reader.parents head e → c ∈ reader.parents e → e ∈ popped) :
    hasColor (colors c) bit = true ↔ Ancestor reader.parents head c := by
  rw [hpaint c]
  constructor
  · rintro (rfl | ⟨e, -, hce, hhe⟩)
    · exact Ancestor.refl c
    · exact hhe.tail hce
  · intro hhc
    rcases ancestor_iff_eq_or_parent.mp hhc with rfl | ⟨e, hhe, hce⟩
    · exact Or.inl rfl
    · exact Or.inr ⟨e, hchild e hhe hce, hce, hhe⟩

section Pop

variable (hwf : ParentsBelow reader) (hinv : PaintInv reader left right popped s) {g : ℕ}
  {c : CommitId} {queue : OrderedSet (ℕ × CommitId)}
  (hpop : s.queue.popLast = some ((g, c), queue))
include hwf hinv hpop

omit hwf in
theorem PaintInv.generation_popped : g = reader.generation c := by
  obtain ⟨hmem, -, -⟩ := OrderedSet.popLast_eq_some hpop
  exact (hinv.queued _ hmem).1

omit hwf in
theorem PaintInv.reached_popped : Reached reader left right c := by
  obtain ⟨hmem, -, -⟩ := OrderedSet.popLast_eq_some hpop
  exact (hinv.queued _ hmem).2

theorem PaintInv.left_popped :
    hasColor (s.colors c) 0 = true ↔ Ancestor reader.parents left c :=
  headPaint_popped hinv.leftPaint fun _ he hce =>
    hinv.child_mem_popped hwf hpop (hinv.generation_popped hpop) (Or.inl he) hce

theorem PaintInv.right_popped :
    hasColor (s.colors c) 1 = true ↔ Ancestor reader.parents right c :=
  headPaint_popped hinv.rightPaint fun _ he hce =>
    hinv.child_mem_popped hwf hpop (hinv.generation_popped hpop) (Or.inr he) hce

/-- The popped commit is stale exactly when a common ancestor lies above it. -/
theorem PaintInv.stale_popped :
    hasColor (s.colors c) 2 = true ↔ HasCommonDescendant reader.parents left right c := by
  obtain ⟨hmem, -, -⟩ := OrderedSet.popLast_eq_some hpop
  have hgc := hinv.generation_popped hpop
  have hnot : c ∉ popped := hinv.not_mem_popped (hgc ▸ hmem)
  rw [hinv.stalePaint c, hasCommonDescendant_iff _ (generation_lt_of_mem_parents hwf)]
  constructor
  · rintro (⟨e, -, hce, he⟩ | ⟨hc, -⟩)
    · exact ⟨e, hce, he⟩
    · exact absurd hc hnot
  · rintro ⟨e, hce, he⟩
    exact Or.inl ⟨e, hinv.child_mem_popped hwf hpop hgc (Or.inl he.1) hce, hce, he⟩

/-- The popped commit's paint marks it best exactly when it is a best common ancestor. -/
theorem PaintInv.isBestColor_popped :
    IsBestColor (s.colors c) ↔ BestCommonAncestor reader.parents left right c := by
  rw [IsBestColor, bestCommonAncestor_iff, CommonAncestor, ← hinv.left_popped hwf hpop,
    ← hinv.right_popped hwf hpop, ← hinv.stale_popped hwf hpop, Bool.not_eq_true]
  tauto

end Pop

/-- The state right after the pop: the rest of the queue, the popped commit no longer
listed as non-stale. -/
def afterPop (s : PaintState) (c : CommitId) (queue : OrderedSet (ℕ × CommitId)) : PaintState :=
  { s with queue, nonStaleQueued := s.nonStaleQueued.erase c }

@[simp] theorem afterPop_queue (s : PaintState) (c : CommitId) (queue : OrderedSet (ℕ × CommitId)) :
    (afterPop s c queue).queue = queue := rfl

@[simp] theorem afterPop_nonStaleQueued (s : PaintState) (c : CommitId)
    (queue : OrderedSet (ℕ × CommitId)) :
    (afterPop s c queue).nonStaleQueued = s.nonStaleQueued.erase c := rfl

@[simp] theorem afterPop_colors (s : PaintState) (c : CommitId) (queue : OrderedSet (ℕ × CommitId)) :
    (afterPop s c queue).colors = s.colors := rfl

@[simp] theorem afterPop_best (s : PaintState) (c : CommitId) (queue : OrderedSet (ℕ × CommitId)) :
    (afterPop s c queue).best = s.best := rfl

section Step

variable (hwf : ParentsBelow reader) (hinv : PaintInv reader left right popped s) {g : ℕ}
  {c : CommitId} {queue : OrderedSet (ℕ × CommitId)}
  (hpop : s.queue.popLast = some ((g, c), queue)) {t : PaintState}
  (hpp : ParentsPainted reader g (markBest c (afterPop s c queue)).1 (reader.parents c)
    (markBest c (afterPop s c queue)).2 t)
include hwf hinv hpop hpp

omit hwf hinv hpop in
/-- The paint after the step: the popped commit's final colour on itself, and passed to its
parents. -/
theorem hasColor_step (d : CommitId) (bit : ℕ) :
    hasColor (t.colors d) bit =
      (hasColor (if d = c then (markBest c (afterPop s c queue)).1 else s.colors d) bit ||
        (decide (d ∈ reader.parents c) && hasColor (markBest c (afterPop s c queue)).1 bit)) := by
  rw [hpp.colors, colors_markBest]
  rfl

omit hpp in
/-- The colour the popped commit passes on is stale exactly when it is a common ancestor. -/
theorem stale_markBest_popped :
    hasColor (markBest c (afterPop s c queue)).1 2 = true ↔
      CommonAncestor reader.parents left right c := by
  rw [hasColor_markBest]
  change (hasColor (s.colors c) 2 || decide (IsBestColor (s.colors c))) = true ↔ _
  rw [Bool.or_eq_true, decide_eq_true_iff, hinv.stale_popped hwf hpop,
    hinv.isBestColor_popped hwf hpop, bestCommonAncestor_iff]
  constructor
  · rintro (hd | ⟨hc, -⟩)
    · exact hd.commonAncestor
    · exact hc
  · intro hc
    by_cases hd : HasCommonDescendant reader.parents left right c
    · exact Or.inl hd
    · exact Or.inr ⟨hc, hd⟩

omit hwf in
theorem PaintInv.queued_step :
    ∀ q ∈ t.queue, q.1 = reader.generation q.2 ∧ Reached reader left right q.2 := by
  obtain ⟨-, -, hrest⟩ := OrderedSet.popLast_eq_some hpop
  intro q hq
  rw [hpp.queue, queue_markBest] at hq
  rcases hq with hq | ⟨p, hp, rfl⟩
  · exact hinv.queued q ((hrest q).mp hq).1
  · refine ⟨rfl, ?_⟩
    rcases hinv.reached_popped hpop with hl | hr
    · exact Or.inl (hl.tail hp)
    · exact Or.inr (hr.tail hp)

omit hwf in
theorem PaintInv.frontier_step (d : CommitId) (hd : Reached reader left right d)
    (hnot : d ∉ c :: popped) :
    ∃ x, (reader.generation x, x) ∈ t.queue ∧ Ancestor reader.parents x d := by
  obtain ⟨-, -, hrest⟩ := OrderedSet.popLast_eq_some hpop
  obtain ⟨x, hx, hxd⟩ := hinv.frontier d hd (fun h => hnot (List.mem_cons_of_mem c h))
  by_cases hxc : x = c
  · -- the popped commit hands the frontier on to the parent on the way to `d`
    subst hxc
    obtain ⟨p, hp, hpd⟩ := exists_parent_of_ancestor hxd (fun h => hnot (h ▸ List.mem_cons_self))
    refine ⟨p, ?_, hpd⟩
    rw [hpp.queue]
    exact Or.inr ⟨p, hp, rfl⟩
  · refine ⟨x, ?_, hxd⟩
    rw [hpp.queue, queue_markBest]
    refine Or.inl ((hrest _).mpr ⟨hx, fun heq => hxc ?_⟩)
    exact (Prod.mk.inj heq).2

omit hwf hinv hpop in
/-- The heads' paint after the step; the popped commit passes on what it has. -/
theorem headPaint_step {head : CommitId} {bit : ℕ} (hbit : bit ≠ 2)
    (hpaint : HeadPaint reader popped head s.colors bit)
    (hhead : hasColor (s.colors c) bit = true ↔ Ancestor reader.parents head c) :
    HeadPaint reader (c :: popped) head t.colors bit := by
  have hpass : hasColor (markBest c (afterPop s c queue)).1 bit = hasColor (s.colors c) bit := by
    have hne : (bit == 2) = false := beq_false_of_ne hbit
    rw [hasColor_markBest, hne, Bool.false_and, Bool.or_false]
    rfl
  have hown : ∀ d, hasColor (if d = c then (markBest c (afterPop s c queue)).1 else s.colors d) bit =
      hasColor (s.colors d) bit := by
    intro d
    split
    · rename_i hdc
      rw [hpass, hdc]
    · rfl
  intro d
  rw [hasColor_step hpp, hown, hpass, Bool.or_eq_true, Bool.and_eq_true,
    decide_eq_true_iff, hpaint d, hhead]
  simp only [List.mem_cons, or_and_right, exists_or, exists_eq_left]
  constructor
  · rintro ((h | h) | h)
    · exact Or.inl h
    · exact Or.inr (Or.inr h)
    · exact Or.inr (Or.inl h)
  · rintro (h | h | h)
    · exact Or.inl (Or.inl h)
    · exact Or.inr h
    · exact Or.inl (Or.inr h)

theorem PaintInv.stalePaint_step (d : CommitId) :
    hasColor (t.colors d) 2 = true ↔
      (∃ e ∈ c :: popped, d ∈ reader.parents e ∧ CommonAncestor reader.parents left right e) ∨
        (d ∈ c :: popped ∧ CommonAncestor reader.parents left right d) := by
  have hpass := stale_markBest_popped hwf hinv hpop
  rw [hasColor_step hpp, Bool.or_eq_true, Bool.and_eq_true, decide_eq_true_iff]
  by_cases hdc : d = c
  · subst hdc
    rw [if_pos rfl, hpass]
    have hbelow : ∀ e, d ∈ reader.parents e → CommonAncestor reader.parents left right e →
        CommonAncestor reader.parents left right d :=
      fun e hde he => ⟨he.1.tail hde, he.2.tail hde⟩
    constructor
    · rintro (hd | ⟨-, hd⟩) <;> exact Or.inr ⟨List.mem_cons_self, hd⟩
    · rintro (⟨e, -, hde, he⟩ | ⟨-, hd⟩)
      · exact Or.inl (hbelow e hde he)
      · exact Or.inl hd
  · rw [if_neg hdc, hinv.stalePaint d, hpass]
    simp only [List.mem_cons, or_and_right, exists_or, exists_eq_left, hdc, false_or]
    constructor
    · rintro ((h | h) | h)
      · exact Or.inl (Or.inr h)
      · exact Or.inr h
      · exact Or.inl (Or.inl h)
    · rintro ((h | h) | h)
      · exact Or.inr h
      · exact Or.inl (Or.inl h)
      · exact Or.inl (Or.inr h)

omit hwf in
theorem PaintInv.nonStale_step (x : CommitId) :
    x ∈ t.nonStaleQueued ↔ (reader.generation x, x) ∈ t.queue ∧ hasColor (t.colors x) 2 = false := by
  obtain ⟨-, -, hrest⟩ := OrderedSet.popLast_eq_some hpop
  have hgc := hinv.generation_popped hpop
  rw [hpp.nonStaleQueued x, hpp.queue, queue_markBest, nonStaleQueued_markBest, afterPop_queue,
    afterPop_nonStaleQueued]
  by_cases hx : x ∈ reader.parents c
  · rw [if_pos hx]
    exact ⟨fun h => ⟨Or.inr ⟨x, hx, rfl⟩, h⟩, fun h => h.2⟩
  · rw [if_neg hx]
    have hqueue : (reader.generation x, x) ∈ queue ∨
        (∃ p ∈ reader.parents c, (reader.generation x, x) = (reader.generation p, p)) ↔
        (reader.generation x, x) ∈ s.queue ∧ x ≠ c := by
      rw [hrest, hgc]
      constructor
      · rintro (⟨hq, hne⟩ | ⟨p, hp, heq⟩)
        · exact ⟨hq, fun h => hne (h ▸ rfl)⟩
        · exact absurd ((Prod.mk.inj heq).2 ▸ hp) hx
      · rintro ⟨hq, hne⟩
        exact Or.inl ⟨hq, fun heq => hne (Prod.mk.inj heq).2⟩
    have hcolor : x ≠ c → hasColor (t.colors x) 2 = hasColor (s.colors x) 2 := by
      intro hne
      rw [hasColor_step hpp, if_neg hne]
      simp [hx]
    rw [hqueue, OrderedSet.mem_erase, hinv.nonStale x]
    constructor
    · rintro ⟨hne, hq, hs⟩
      exact ⟨⟨hq, hne⟩, (hcolor hne).trans hs⟩
    · rintro ⟨⟨hq, hne⟩, hs⟩
      exact ⟨hne, hq, (hcolor hne).symm.trans hs⟩

theorem PaintInv.best_step (c' : CommitId) :
    c' ∈ t.best ↔ c' ∈ c :: popped ∧ BestCommonAncestor reader.parents left right c' := by
  rw [hpp.best, best_markBest]
  change c' ∈ (if IsBestColor (s.colors c) then s.best ++ [c] else s.best) ↔ _
  have hiff := hinv.isBestColor_popped hwf hpop
  split
  · rename_i hbest
    rw [List.mem_append, List.mem_singleton, hinv.best c', List.mem_cons]
    constructor
    · rintro (⟨hp, hb⟩ | rfl)
      · exact ⟨Or.inr hp, hb⟩
      · exact ⟨Or.inl rfl, hiff.mp hbest⟩
    · rintro ⟨rfl | hp, hb⟩
      · exact Or.inr rfl
      · exact Or.inl ⟨hp, hb⟩
  · rename_i hbest
    rw [hinv.best c', List.mem_cons]
    constructor
    · rintro ⟨hp, hb⟩
      exact ⟨Or.inr hp, hb⟩
    · rintro ⟨rfl | hp, hb⟩
      · exact absurd (hiff.mpr hb) hbest
      · exact ⟨hp, hb⟩

end Step

/-- One round of the walk keeps the invariant, with the popped commit added. -/
theorem PaintInv.step (hwf : ParentsBelow reader) (hinv : PaintInv reader left right popped s)
    {g : ℕ} {c : CommitId} {queue : OrderedSet (ℕ × CommitId)}
    (hpop : s.queue.popLast = some ((g, c), queue)) {t : PaintState}
    (h : paintCommit reader g c (afterPop s c queue) = .ok t) :
    PaintInv reader left right (c :: popped) t := by
  obtain ⟨commit, hload, -, hfold⟩ := paintCommit_eq_ok h
  have hpp := foldlM_paintParent_eq_ok hfold
  rw [← CommitGraphStoreReader.parents_of_loadNode hload] at hpp
  refine ⟨hinv.bound.step hpop h, ?_, hinv.queued_step hpop hpp,
    hinv.frontier_step hpop hpp, ?_, ?_, hinv.stalePaint_step hwf hpop hpp,
    hinv.nonStale_step hpop hpp, hinv.best_step hwf hpop hpp⟩
  · intro d hd
    rcases List.mem_cons.mp hd with rfl | hd
    · exact hinv.reached_popped hpop
    · exact hinv.reached d hd
  · exact headPaint_step hpp (by decide) hinv.leftPaint (hinv.left_popped hwf hpop)
  · exact headPaint_step hpp (by decide) hinv.rightPaint
      (hinv.right_popped hwf hpop)

/-- A round of the walk never fails: the popped commit is stored at its queued generation,
with its parents stored below it. -/
theorem PaintInv.paintCommit_ok (hwf : ParentsBelow reader)
    (hinv : PaintInv reader left right popped s) (hl : (reader.loadNode left).isSome)
    (hr : (reader.loadNode right).isSome) {g : ℕ} {c : CommitId}
    {queue : OrderedSet (ℕ × CommitId)} (hpop : s.queue.popLast = some ((g, c), queue)) :
    ∃ t, paintCommit reader g c (afterPop s c queue) = .ok t := by
  have hloaded : (reader.loadNode c).isSome := by
    rcases hinv.reached_popped hpop with h | h
    · exact loaded_of_ancestor hwf hl h
    · exact loaded_of_ancestor hwf hr h
  obtain ⟨commit, hload⟩ := Option.isSome_iff_exists.mp hloaded
  have hgen : commit.generation = g := by
    rw [hinv.generation_popped hpop, CommitGraphStoreReader.generation_of_loadNode hload]
  exact paintCommit_isOk _ hload hgen fun p hp => hgen ▸ parent_loaded hwf hload hp

/-- A best common ancestor not popped yet keeps a commit listed as non-stale: the queued
commit above it is not stale, or its common descendant would pass down to the best one. -/
theorem PaintInv.nonStaleQueued_of_best (hwf : ParentsBelow reader)
    (hinv : PaintInv reader left right popped s) {d : CommitId}
    (hd : BestCommonAncestor reader.parents left right d) (hnot : d ∉ popped) :
    ∃ x, x ∈ s.nonStaleQueued := by
  obtain ⟨x, hx, hxd⟩ := hinv.frontier d (Or.inl hd.1.1) hnot
  refine ⟨x, (hinv.nonStale x).mpr ⟨hx, ?_⟩⟩
  rw [Bool.eq_false_iff]
  intro hstale
  rcases (hinv.stalePaint x).mp hstale with ⟨e, -, hxe, he⟩ | ⟨hxp, -⟩
  · have hrank := generation_lt_of_mem_parents hwf
    have hcd := (hasCommonDescendant_iff _ hrank).mpr ⟨e, hxe, he⟩
    exact (bestCommonAncestor_iff.mp hd).2 (hcd.of_ancestor _ hrank hxd)
  · exact hinv.not_mem_popped hx hxp

/-- Once every best common ancestor was popped, the best list holds exactly them. -/
theorem PaintInv.best_iff_of_popped (hinv : PaintInv reader left right popped s)
    (hdone : ∀ d, BestCommonAncestor reader.parents left right d → d ∈ popped) (c : CommitId) :
    c ∈ s.best ↔ BestCommonAncestor reader.parents left right c := by
  rw [hinv.best c]
  exact ⟨fun h => h.2, fun h => ⟨hdone c h, h⟩⟩

/-- The loop from any state with the invariant returns exactly the best common ancestors,
whichever way it stops. -/
theorem bestCommonIdsLoop_eq_some (hwf : ParentsBelow reader)
    (hl : (reader.loadNode left).isSome) (hr : (reader.loadNode right).isSome) (fuel : ℕ)
    (popped : List CommitId) (s : PaintState) (hinv : PaintInv reader left right popped s)
    {result : Except LixError (List CommitId)} (h : bestCommonIdsLoop reader fuel s = some result) :
    ∃ best, result = .ok best ∧ ∀ c, c ∈ best ↔ BestCommonAncestor reader.parents left right c := by
  fun_induction bestCommonIdsLoop reader fuel s generalizing popped with
  | case1 s => cases h
  | case2 fuel s hpop =>
    refine ⟨s.best, (Option.some.inj h).symm, hinv.best_iff_of_popped fun d hd => ?_⟩
    by_contra hnot
    obtain ⟨x, hx⟩ := hinv.nonStaleQueued_of_best hwf hd hnot
    exact OrderedSet.popLast_eq_none_iff.mp hpop _ ((hinv.nonStale x).mp hx).1
  | case3 fuel s g c queue hpop hstop =>
    refine ⟨s.best, (Option.some.inj h).symm, hinv.best_iff_of_popped fun d hd => ?_⟩
    by_contra hnot
    obtain ⟨x, hx⟩ := hinv.nonStaleQueued_of_best hwf hd hnot
    exact OrderedSet.isEmpty_iff.mp hstop.2 x hx
  | case4 fuel s g c queue hpop hgo e herr =>
    obtain ⟨t, ht⟩ := hinv.paintCommit_ok hwf hl hr hpop
    rw [afterPop] at ht
    rw [ht] at herr
    cases herr
  | case5 fuel s g c queue hpop hgo t hstep ih =>
    exact ih (c :: popped) (hinv.step hwf hpop hstep) h

/-- The initial paint: the left colour on `left`, the right colour on `right`. -/
theorem hasColor_initialPaintState (left right : CommitId) (lg rg : ℕ) (d : CommitId) (bit : ℕ) :
    hasColor ((initialPaintState left right lg rg).colors d) bit =
      ((decide (d = left) && hasColor colorLeft bit) ||
        (decide (d = right) && hasColor colorRight bit)) := by
  dsimp only [initialPaintState]
  by_cases hlr : left = right
  · subst hlr
    rw [if_pos rfl]
    by_cases hd : d = left
    · subst hd
      simp [colorBoth]
    · simp [hd]
  · rw [if_neg hlr]
    by_cases hdr : d = right
    · subst hdr
      simp [Ne.symm hlr]
    · by_cases hdl : d = left
      · subst hdl
        simp [hdr]
      · simp [hdl, hdr]

theorem paintInv_initial (left right : CommitId) :
    PaintInv reader left right []
      (initialPaintState left right (reader.generation left) (reader.generation right)) where
  bound := walkBound_initial left right _ _
  reached := by simp
  queued := by
    intro q hq
    simp only [initialPaintState, OrderedSet.mem_ofList, List.mem_cons, List.not_mem_nil,
      or_false] at hq
    rcases hq with rfl | rfl
    · exact ⟨rfl, Or.inl (Ancestor.refl _)⟩
    · exact ⟨rfl, Or.inr (Ancestor.refl _)⟩
  frontier := by
    rintro d (h | h) -
    · exact ⟨left, by simp [initialPaintState], h⟩
    · exact ⟨right, by simp [initialPaintState], h⟩
  leftPaint := by
    intro d
    rw [hasColor_initialPaintState]
    have h1 : hasColor colorLeft 0 = true := by decide
    have h2 : hasColor colorRight 0 = false := by decide
    simp [h1, h2]
  rightPaint := by
    intro d
    rw [hasColor_initialPaintState]
    have h1 : hasColor colorLeft 1 = false := by decide
    have h2 : hasColor colorRight 1 = true := by decide
    simp [h1, h2]
  stalePaint := by
    intro d
    rw [hasColor_initialPaintState]
    have h1 : hasColor colorLeft 2 = false := by decide
    have h2 : hasColor colorRight 2 = false := by decide
    simp [h1, h2]
  nonStale := by
    intro x
    rw [hasColor_initialPaintState]
    have h1 : hasColor colorLeft 2 = false := by decide
    have h2 : hasColor colorRight 2 = false := by decide
    simp only [initialPaintState, OrderedSet.mem_ofList, List.mem_cons, List.not_mem_nil,
      or_false, h1, h2, Bool.and_false, Bool.or_false, and_true, Prod.mk.injEq]
    constructor
    · rintro (rfl | rfl)
      · exact Or.inl ⟨rfl, rfl⟩
      · exact Or.inr ⟨rfl, rfl⟩
    · rintro (⟨-, rfl⟩ | ⟨-, rfl⟩)
      · exact Or.inl rfl
      · exact Or.inr rfl
  best := by simp [initialPaintState]

end Invariant

section Result

variable {reader : CommitGraphStoreReader}

/-- `best_common_ids` on two stored heads: the best common ancestors, in commit-id order. -/
theorem bestCommonIds_eq_ok (hwf : ParentsBelow reader) {left right : CommitId}
    (hl : (reader.loadNode left).isSome) (hr : (reader.loadNode right).isSome) :
    ∃ ids, bestCommonIds reader left right = .ok ids ∧ StrictlySorted id ids ∧
      ∀ c, c ∈ ids ↔ BestCommonAncestor reader.parents left right c := by
  obtain ⟨leftNode, hleft⟩ := Option.isSome_iff_exists.mp hl
  obtain ⟨rightNode, hright⟩ := Option.isSome_iff_exists.mp hr
  have hinv : PaintInv reader left right []
      (initialPaintState left right leftNode.generation rightNode.generation) := by
    rw [← CommitGraphStoreReader.generation_of_loadNode hleft,
      ← CommitGraphStoreReader.generation_of_loadNode hright]
    exact paintInv_initial left right
  have hsome := bestCommonIdsLoop_isSome reader left right leftNode.generation rightNode.generation
  obtain ⟨best, hbest, hmem⟩ := bestCommonIdsLoop_eq_some hwf hl hr _ [] _ hinv
    (Option.some_get hsome).symm
  refine ⟨dedupAdjacent (sortByKey id best), ?_, ?_, ?_⟩
  · rw [bestCommonIds, NodeTraversalLoader.loadNode_eq_ok.mpr hleft,
      NodeTraversalLoader.loadNode_eq_ok.mpr hright]
    simp only [bind, Except.bind]
    rw [hbest]
    rfl
  · exact dedupAdjacent_strictlySorted (pairwise_isLE_sortByKey id best)
  · intro c
    rw [mem_dedupAdjacent, (sortByKey_perm id best).mem_iff, hmem]

/-- Loading stored commits one by one gives their nodes, in order. -/
theorem mapM_loadNode_eq_ok {ids : List CommitId} (h : ∀ c ∈ ids, (reader.loadNode c).isSome) :
    ∃ nodes, ids.mapM (NodeTraversalLoader.loadNode reader) = .ok nodes ∧
      nodes.map (·.commitId) = ids := by
  induction ids with
  | nil => exact ⟨[], rfl, rfl⟩
  | cons c ids ih =>
    obtain ⟨node, hnode⟩ := Option.isSome_iff_exists.mp (h c List.mem_cons_self)
    obtain ⟨nodes, hnodes, hids⟩ := ih fun d hd => h d (List.mem_cons_of_mem c hd)
    refine ⟨node :: nodes, ?_, ?_⟩
    · rw [List.mapM_cons, NodeTraversalLoader.loadNode_eq_ok.mpr hnode, hnodes]
      rfl
    · rw [List.map_cons, hids, (CommitGraphStoreReader.mem_of_loadNode hnode).2]

/-- `best_common_ancestors` on two stored heads: the nodes of the best common ancestors, in
commit-id order. -/
theorem bestCommonAncestors_eq_ok (hwf : ParentsBelow reader) {left right : CommitId}
    (hl : (reader.loadNode left).isSome) (hr : (reader.loadNode right).isSome) :
    ∃ nodes, bestCommonAncestors reader left right = .ok nodes ∧
      StrictlySorted id (nodes.map (·.commitId)) ∧
      ∀ c, c ∈ nodes.map (·.commitId) ↔ BestCommonAncestor reader.parents left right c := by
  obtain ⟨ids, hok, hsorted, hmem⟩ := bestCommonIds_eq_ok hwf hl hr
  have hloaded : ∀ c ∈ ids, (reader.loadNode c).isSome :=
    fun c hc => loaded_of_ancestor hwf hl ((hmem c).mp hc).1.1
  obtain ⟨nodes, hnodes, hids⟩ := mapM_loadNode_eq_ok hloaded
  refine ⟨nodes, ?_, hids ▸ hsorted, hids ▸ hmem⟩
  rw [bestCommonAncestors, hok]
  exact hnodes

theorem bestCommonIds_exact (hwf : ParentsBelow reader) (left right : CommitId)
    (hl : (reader.loadNode left).isSome) (hr : (reader.loadNode right).isSome) :
    ∃ ids, bestCommonIds reader left right = .ok ids ∧ StrictlySorted id ids ∧
      (∀ c, c ∈ ids ↔ BestCommonAncestor reader.parents left right c) ∧
      (Ancestor reader.parents right left → ids = [left]) ∧
      (∀ c ∈ ids, ∀ c' ∈ ids, Ancestor reader.parents c c' → c = c') ∧
      bestCommonIds reader right left = .ok ids := by
  obtain ⟨ids, hok, hsorted, hmem⟩ := bestCommonIds_eq_ok hwf hl hr
  obtain ⟨ids', hok', hsorted', hmem'⟩ := bestCommonIds_eq_ok hwf hr hl
  refine ⟨ids, hok, hsorted, hmem, fun hanc => ?_, ?_, ?_⟩
  · -- `left` is then the only best common ancestor, and a sorted list is fixed by its members
    apply StrictlySorted.eq_of_mem_iff id hsorted (List.pairwise_singleton _ _)
    intro c
    rw [hmem, bestCommonAncestor_iff_of_ancestor _ (generation_lt_of_mem_parents hwf) hanc,
      List.mem_singleton]
  · intro c hc c' hc' hcc'
    exact eq_of_bestCommonAncestor_of_ancestor ((hmem c).mp hc) ((hmem c').mp hc') hcc'
  · -- both orders of the heads give the same members, sorted the same way
    rw [hok']
    congr 1
    apply StrictlySorted.eq_of_mem_iff id hsorted' hsorted
    intro c
    rw [hmem', hmem, bestCommonAncestor_comm]

/-- A commit id for a small example history. -/
def sampleCommitId (n : UInt8) : CommitId := ⟨Vector.replicate 16 n⟩

/-- The criss-cross history of the walker's tests: a root, two branches off it, and two
heads that each merge both branches. -/
def crissCrossReader : CommitGraphStoreReader where
  nodes := [⟨sampleCommitId 0, 0, [], sampleCommitId 0, 0⟩,
    ⟨sampleCommitId 1, 1, [sampleCommitId 0], sampleCommitId 0, 1⟩,
    ⟨sampleCommitId 2, 1, [sampleCommitId 0], sampleCommitId 0, 1⟩,
    ⟨sampleCommitId 3, 2, [sampleCommitId 1, sampleCommitId 2], sampleCommitId 3, 0⟩,
    ⟨sampleCommitId 4, 2, [sampleCommitId 2, sampleCommitId 1], sampleCommitId 4, 0⟩]
  decoded := by decide

theorem bestCommonIds_exact_crissCross :
    ∃ ids, bestCommonIds crissCrossReader (sampleCommitId 3) (sampleCommitId 4) = .ok ids ∧
      ∀ c, c ∈ ids ↔
        BestCommonAncestor crissCrossReader.parents (sampleCommitId 3) (sampleCommitId 4) c := by
  obtain ⟨ids, hok, -, hmem, -⟩ :=
    @bestCommonIds_exact crissCrossReader (by decide) (sampleCommitId 3)
      (sampleCommitId 4) (by decide) (by decide)
  exact ⟨ids, hok, hmem⟩

-- the walk finds both branch commits, the greater key first
example : bestCommonIdsLoop crissCrossReader 6
    (initialPaintState (sampleCommitId 3) (sampleCommitId 4) 2 2) =
      some (.ok [sampleCommitId 2, sampleCommitId 1]) := by
  decide +kernel

end Result

end Lix.CommitGraph
