import Mathlib

/-! Ancestry in a graph given by parent links: reflexive ancestors, the common ancestors of
two heads, and the best ones, below which no other common ancestor lies. When every parent
has a smaller rank than its child (a generation number), ancestry is a partial order, a
proper descendant has a strictly greater rank, and having a common descendant is decided
one parent link at a time. -/
namespace Lix.Ancestry

variable {ι : Type*} (parents : ι → List ι)

/-- `b` is reached from `a` by following parent links, `a` itself included. -/
def Ancestor (a b : ι) : Prop := Relation.ReflTransGen (fun x y => y ∈ parents x) a b

def CommonAncestor (l r c : ι) : Prop := Ancestor parents l c ∧ Ancestor parents r c

/-- Some common ancestor other than `c` is a descendant of `c`. -/
def HasCommonDescendant (l r c : ι) : Prop :=
  ∃ d, d ≠ c ∧ CommonAncestor parents l r d ∧ Ancestor parents d c

/-- A common ancestor with no proper descendant that is also a common ancestor. -/
def BestCommonAncestor (l r c : ι) : Prop :=
  CommonAncestor parents l r c ∧ ∀ d, CommonAncestor parents l r d → Ancestor parents d c → d = c

/-- `b` is reached from `a` through commits with a single parent each: a stretch of one
lane of history. -/
def LinearDescent (a b : ι) : Prop := Relation.ReflTransGen (fun x y => parents x = [y]) a b

variable {parents}

@[refl] theorem Ancestor.refl (a : ι) : Ancestor parents a a := Relation.ReflTransGen.refl

theorem Ancestor.trans {a b c : ι} (hab : Ancestor parents a b) (hbc : Ancestor parents b c) :
    Ancestor parents a c :=
  Relation.ReflTransGen.trans hab hbc

theorem Ancestor.tail {a b c : ι} (hab : Ancestor parents a b) (hc : c ∈ parents b) :
    Ancestor parents a c :=
  Relation.ReflTransGen.tail hab hc

theorem ancestor_of_mem_parents {a b : ι} (h : b ∈ parents a) : Ancestor parents a b :=
  Relation.ReflTransGen.single h

/-- An ancestor is the head itself or a parent of one of its ancestors. -/
theorem ancestor_iff_eq_or_parent {a c : ι} :
    Ancestor parents a c ↔ c = a ∨ ∃ e, Ancestor parents a e ∧ c ∈ parents e := by
  constructor
  · exact Relation.ReflTransGen.cases_tail
  · rintro (rfl | ⟨e, hae, hce⟩)
    · exact Ancestor.refl c
    · exact hae.tail hce

/-- A proper ancestor is an ancestor of one of the head's parents. -/
theorem exists_parent_of_ancestor {a c : ι} (h : Ancestor parents a c) (hne : a ≠ c) :
    ∃ p ∈ parents a, Ancestor parents p c := by
  rcases Relation.ReflTransGen.cases_head h with rfl | ⟨p, hp, hpc⟩
  · exact absurd rfl hne
  · exact ⟨p, hp, hpc⟩

theorem commonAncestor_comm {l r c : ι} :
    CommonAncestor parents l r c ↔ CommonAncestor parents r l c :=
  and_comm

theorem bestCommonAncestor_comm {l r c : ι} :
    BestCommonAncestor parents l r c ↔ BestCommonAncestor parents r l c := by
  simp only [BestCommonAncestor, commonAncestor_comm]

theorem bestCommonAncestor_iff {l r c : ι} :
    BestCommonAncestor parents l r c ↔
      CommonAncestor parents l r c ∧ ¬HasCommonDescendant parents l r c := by
  unfold BestCommonAncestor HasCommonDescendant
  constructor
  · rintro ⟨hc, hbest⟩
    refine ⟨hc, ?_⟩
    rintro ⟨d, hne, hd, hdc⟩
    exact hne (hbest d hd hdc)
  · rintro ⟨hc, hnone⟩
    refine ⟨hc, fun d hd hdc => ?_⟩
    by_contra hne
    exact hnone ⟨d, hne, hd, hdc⟩

/-- Below a common ancestor, every commit is a common ancestor. -/
theorem HasCommonDescendant.commonAncestor {l r c : ι} (h : HasCommonDescendant parents l r c) :
    CommonAncestor parents l r c := by
  obtain ⟨d, -, hd, hdc⟩ := h
  exact ⟨hd.1.trans hdc, hd.2.trans hdc⟩

/-- No best common ancestor is an ancestor of another one. -/
theorem eq_of_bestCommonAncestor_of_ancestor {l r c c' : ι}
    (hc : BestCommonAncestor parents l r c) (hc' : BestCommonAncestor parents l r c')
    (h : Ancestor parents c c') : c = c' :=
  hc'.2 c hc.1 h

/-- Two pairs of heads with the same common ancestors have the same best ones. -/
theorem bestCommonAncestor_congr {l r l' r' c : ι}
    (h : ∀ d, CommonAncestor parents l r d ↔ CommonAncestor parents l' r' d) :
    BestCommonAncestor parents l r c ↔ BestCommonAncestor parents l' r' c := by
  unfold BestCommonAncestor
  simp only [h]

theorem linearDescent_of_parents_eq {a b : ι} (h : parents a = [b]) : LinearDescent parents a b :=
  Relation.ReflTransGen.single h

theorem LinearDescent.trans {a b c : ι} (hab : LinearDescent parents a b)
    (hbc : LinearDescent parents b c) : LinearDescent parents a c :=
  Relation.ReflTransGen.trans hab hbc

theorem LinearDescent.ancestor {a b : ι} (h : LinearDescent parents a b) : Ancestor parents a b := by
  induction h with
  | refl => exact Ancestor.refl a
  | tail _ hbc ih =>
    rename_i b c _
    exact ih.tail (by rw [hbc]; exact List.mem_singleton_self c)

/-- The ancestors of a commit with a single parent: itself, and the parent's. -/
theorem ancestor_iff_of_parents_eq {a p d : ι} (h : parents a = [p]) :
    Ancestor parents a d ↔ d = a ∨ Ancestor parents p d := by
  constructor
  · intro had
    rcases Relation.ReflTransGen.cases_head had with rfl | ⟨q, hq, hqd⟩
    · exact Or.inl rfl
    · rw [h, List.mem_singleton] at hq
      subst hq
      exact Or.inr hqd
  · rintro (rfl | hpd)
    · exact Ancestor.refl d
    · exact (ancestor_of_mem_parents (h ▸ List.mem_singleton_self p)).trans hpd

/-- Below the top of a lane lie the lane's own commits and what lies below its bottom. -/
theorem LinearDescent.ancestor_split {a b d : ι} (hab : LinearDescent parents a b)
    (had : Ancestor parents a d) : LinearDescent parents d b ∨ Ancestor parents b d := by
  induction hab using Relation.ReflTransGen.head_induction_on with
  | refl => exact Or.inr had
  | head hac hcb ih =>
    rename_i a c
    rcases (ancestor_iff_of_parents_eq hac).mp had with rfl | hcd
    · exact Or.inl (Relation.ReflTransGen.head hac hcb)
    · exact ih hcd

section Ranked

variable (rank : ι → ℕ) (hrank : ∀ a, ∀ b ∈ parents a, rank b < rank a)
include hrank

theorem rank_le_of_ancestor {a b : ι} (h : Ancestor parents a b) : rank b ≤ rank a := by
  induction h with
  | refl => exact le_refl _
  | tail _ hbc ih => exact (hrank _ _ hbc).le.trans ih

theorem rank_lt_of_ancestor {a b : ι} (h : Ancestor parents a b) (hne : a ≠ b) :
    rank b < rank a := by
  obtain ⟨p, hp, hpb⟩ := exists_parent_of_ancestor h hne
  exact (rank_le_of_ancestor rank hrank hpb).trans_lt (hrank a p hp)

theorem ancestor_antisymm {a b : ι} (hab : Ancestor parents a b) (hba : Ancestor parents b a) :
    a = b := by
  by_contra hne
  have hlt := rank_lt_of_ancestor rank hrank hab hne
  have hle := rank_le_of_ancestor rank hrank hba
  omega

/-- When one head is an ancestor of the other, it is the only best common ancestor. -/
theorem bestCommonAncestor_iff_of_ancestor {l r c : ι} (h : Ancestor parents r l) :
    BestCommonAncestor parents l r c ↔ c = l := by
  constructor
  · rintro ⟨⟨hlc, -⟩, hbest⟩
    exact (hbest l ⟨Ancestor.refl l, h⟩ hlc).symm
  · rintro rfl
    refine ⟨⟨Ancestor.refl c, h⟩, fun d hd hdc => ?_⟩
    exact ancestor_antisymm rank hrank hdc hd.1

/-- A common descendant of `c` is found among the children of `c`. -/
theorem hasCommonDescendant_iff {l r c : ι} :
    HasCommonDescendant parents l r c ↔ ∃ e, c ∈ parents e ∧ CommonAncestor parents l r e := by
  constructor
  · rintro ⟨d, hne, hd, hdc⟩
    rcases ancestor_iff_eq_or_parent.mp hdc with rfl | ⟨e, hde, hce⟩
    · exact absurd rfl hne
    · exact ⟨e, hce, hd.1.trans hde, hd.2.trans hde⟩
  · rintro ⟨e, hce, he⟩
    refine ⟨e, fun hec => ?_, he, ancestor_of_mem_parents hce⟩
    subst hec
    exact lt_irrefl _ (hrank e e hce)

/-- Having a common descendant passes down to every ancestor. -/
theorem HasCommonDescendant.of_ancestor {l r x c : ι} (hx : HasCommonDescendant parents l r x)
    (hxc : Ancestor parents x c) : HasCommonDescendant parents l r c := by
  obtain ⟨d, hne, hd, hdx⟩ := hx
  refine ⟨d, fun hdc => ?_, hd, hdx.trans hxc⟩
  subst hdc
  have hlt := rank_lt_of_ancestor rank hrank hdx hne
  have hle := rank_le_of_ancestor rank hrank hxc
  omega

theorem LinearDescent.eq_or_rank_lt {a b : ι} (h : LinearDescent parents a b) :
    a = b ∨ rank b < rank a := by
  by_cases hab : a = b
  · exact Or.inl hab
  · exact Or.inr (rank_lt_of_ancestor rank hrank h.ancestor hab)

/-- A lane commit at most as high as some ancestor of it is the lane's bottom. -/
theorem LinearDescent.eq_of_ancestor {d x y : ι} (hdx : LinearDescent parents d x)
    (hyd : Ancestor parents y d) (hle : rank y ≤ rank x) : d = x := by
  have hdy := rank_le_of_ancestor rank hrank hyd
  rcases hdx.eq_or_rank_lt rank hrank with heq | hlt
  · exact heq
  · omega

/-- A lane goes one way: its commits of one rank are one commit. -/
theorem LinearDescent.eq_of_rank_eq {d x y : ι} (hx : LinearDescent parents d x)
    (hy : LinearDescent parents d y) (h : rank x = rank y) : x = y := by
  induction hx using Relation.ReflTransGen.head_induction_on generalizing y with
  | refl =>
    rcases hy.eq_or_rank_lt rank hrank with heq | hlt
    · exact heq
    · omega
  | head hdp hpx ih =>
    rename_i d p
    rcases Relation.ReflTransGen.cases_head hy with rfl | ⟨q, hdq, hqy⟩
    · -- `y` is `d` itself, strictly above `x`
      have hxp := rank_le_of_ancestor rank hrank (LinearDescent.ancestor hpx)
      have hpd := hrank d p (hdp ▸ List.mem_singleton_self p)
      omega
    · -- the lane's next commit is the one parent of `d`
      rw [hdp, List.cons.injEq] at hdq
      obtain ⟨rfl, -⟩ := hdq
      exact ih hqy h

/-- Lowering the left head down its lane, to no lower than the right head, keeps the
common ancestors. -/
theorem commonAncestor_iff_of_linearDescent {l l' r d : ι} (hl : LinearDescent parents l l')
    (hr : rank r ≤ rank l') :
    CommonAncestor parents l r d ↔ CommonAncestor parents l' r d := by
  constructor
  · rintro ⟨hld, hrd⟩
    rcases hl.ancestor_split hld with hdl | hl'd
    · -- a lane commit above `l'` is too high for `r`
      obtain rfl := hdl.eq_of_ancestor rank hrank hrd hr
      exact ⟨Ancestor.refl d, hrd⟩
    · exact ⟨hl'd, hrd⟩
  · rintro ⟨hl'd, hrd⟩
    exact ⟨hl.ancestor.trans hl'd, hrd⟩

/-- Lowering both heads down their lanes to two distinct commits of one rank keeps the
common ancestors: the lanes cannot share a commit above them. -/
theorem commonAncestor_iff_of_linearDescent_both {l l' r r' d : ι}
    (hl : LinearDescent parents l l') (hr : LinearDescent parents r r')
    (hrank' : rank l' = rank r') (hne : l' ≠ r') :
    CommonAncestor parents l r d ↔ CommonAncestor parents l' r' d := by
  constructor
  · rintro ⟨hld, hrd⟩
    rcases hl.ancestor_split hld with hdl | hl'd <;> rcases hr.ancestor_split hrd with hdr | hr'd
    · exact absurd ((hdl.eq_of_rank_eq rank hrank hdr hrank')) hne
    · obtain rfl := hdl.eq_of_ancestor rank hrank hr'd hrank'.ge
      exact ⟨Ancestor.refl d, hr'd⟩
    · obtain rfl := hdr.eq_of_ancestor rank hrank hl'd hrank'.le
      exact ⟨hl'd, Ancestor.refl d⟩
    · exact ⟨hl'd, hr'd⟩
  · rintro ⟨hl'd, hr'd⟩
    exact ⟨hl.ancestor.trans hl'd, hr.ancestor.trans hr'd⟩

/-- Two distinct heads of one rank, each with a single parent, have the common ancestors
of their parents. -/
theorem commonAncestor_iff_of_parents_eq {l r pl pr d : ι} (hl : parents l = [pl])
    (hr : parents r = [pr]) (hrank' : rank l = rank r) (hne : l ≠ r) :
    CommonAncestor parents l r d ↔ CommonAncestor parents pl pr d := by
  unfold CommonAncestor
  rw [ancestor_iff_of_parents_eq hl, ancestor_iff_of_parents_eq hr]
  constructor
  · rintro ⟨hdl | hld, hdr | hrd⟩
    · exact absurd (hdl.symm.trans hdr) hne
    · -- `l` would lie below the parent of `r`, a rank below it
      subst hdl
      have hle := rank_le_of_ancestor rank hrank hrd
      have hlt := hrank r pr (hr ▸ List.mem_singleton_self pr)
      omega
    · subst hdr
      have hle := rank_le_of_ancestor rank hrank hld
      have hlt := hrank l pl (hl ▸ List.mem_singleton_self pl)
      omega
    · exact ⟨hld, hrd⟩
  · rintro ⟨hld, hrd⟩
    exact ⟨Or.inr hld, Or.inr hrd⟩

theorem bestCommonAncestor_self_iff {l c : ι} : BestCommonAncestor parents l l c ↔ c = l :=
  bestCommonAncestor_iff_of_ancestor rank hrank (Ancestor.refl l)

/-- Two distinct heads of one rank, one of them a root, have no common ancestor. -/
theorem not_commonAncestor_of_parents_eq_nil {l r d : ι} (hl : parents l = [])
    (hrank' : rank l = rank r) (hne : l ≠ r) : ¬CommonAncestor parents l r d := by
  rintro ⟨hld, hrd⟩
  rcases Relation.ReflTransGen.cases_head hld with hdl | ⟨q, hq, -⟩
  · -- the root would lie below the other head, at its rank
    subst hdl
    have hlt := rank_lt_of_ancestor rank hrank hrd (Ne.symm hne)
    omega
  · rw [hl] at hq
    exact List.not_mem_nil hq

end Ranked

end Lix.Ancestry
