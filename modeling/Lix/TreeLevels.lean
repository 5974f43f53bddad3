import Lix.TreeBuild

/-! When the level loop of the tree builder ends. `while summaries.len() > 1` builds one
internal level per round, and ends only once a round has cut its summaries into one node.

Short keys make it end: a summary with keys of at most `bound` bytes never reaches the minimum
chunk size alone and always fits beside another, so each round at least halves the summaries,
whatever `boundary_trigger` says, and a tree of `n` rows is built within `n + 1` rounds.

Long keys keep it from ending: a summary whose keys take it alone to the maximum chunk size is
an internal node of its own in the next round, with the same keys, so from two such summaries on
the loop goes round forever. With the default options, two rows whose encoded keys have 8176
bytes or more are enough, for every `boundary_trigger` and every hash. -/
namespace Lix.Tree
open NodeCodec Chunking

/-- Two lists related pointwise by maps that agree. -/
theorem map_eq_map_of_forall₂ {α β γ : Type*} {R : α → β → Prop} {f : α → γ} {g : β → γ}
    (hfg : ∀ a b, R a b → f a = g b) : ∀ {as : List α} {bs : List β}, List.Forall₂ R as bs →
      as.map f = bs.map g
  | _, _, .nil => rfl
  | _, _, .cons hab hrest => by rw [List.map_cons, List.map_cons, hfg _ _ hab,
      map_eq_map_of_forall₂ hfg hrest]

/-- A member of a list is the image of a member of any list with the same image. -/
theorem exists_mem_of_map_eq {α β γ : Type*} {f : α → γ} {g : β → γ} {as : List α} {bs : List β}
    (h : as.map f = bs.map g) {a : α} (ha : a ∈ as) : ∃ b ∈ bs, g b = f a := by
  have himage : f a ∈ bs.map g := h ▸ List.mem_map_of_mem ha
  exact List.mem_map.mp himage

theorem length_eq_of_map_eq {α β γ : Type*} {f : α → γ} {g : β → γ} {as : List α} {bs : List β}
    (h : as.map f = bs.map g) : as.length = bs.length := by
  have hlength := congrArg List.length h
  rwa [List.length_map, List.length_map] at hlength

section Levels

variable (options : TrackedStateTreeOptions)
  (boundaryTrigger : List UInt8 → ℕ → ℕ → ℕ → ℕ → Bool)
  (hashBytes : List UInt8 → Vector UInt8 trackedStateHashBytes)

/-- The keys of a summary, which decide how it is chunked. -/
def keysOf (summary : ChildSummary) : List UInt8 × List UInt8 := (summary.firstKey, summary.lastKey)

/-- The size estimate of an internal node of one child. -/
theorem estimate_singleton (child : ChildSummary) :
    estimateInternalChunkSize [child].length ([child].map (·.firstKey.length)).sum
        ([child].map (·.lastKey.length)).sum =
      64 + child.firstKey.length + child.lastKey.length := by
  simp only [estimateInternalChunkSize, trackedStateHashBytes, List.length_singleton,
    List.map_cons, List.map_nil, List.sum_cons, List.sum_nil]
  omega

/-- The size estimate of an internal node of two children. -/
theorem estimate_pair (first second : ChildSummary) :
    estimateInternalChunkSize [first, second].length ([first, second].map (·.firstKey.length)).sum
        ([first, second].map (·.lastKey.length)).sum =
      112 + first.firstKey.length + first.lastKey.length + second.firstKey.length +
        second.lastKey.length := by
  simp only [estimateInternalChunkSize, trackedStateHashBytes, List.length_cons, List.length_nil,
    List.map_cons, List.map_nil, List.sum_cons, List.sum_nil]
  omega

/-- The summaries of one internal level keep the keys at the ends of their groups. -/
theorem keysOf_of_internalSummaryOf {hashBytes : List UInt8 → Vector UInt8 trackedStateHashBytes}
    {summary : ChildSummary} {group : List ChildSummary}
    (h : InternalSummaryOf hashBytes summary group) :
    keysOf summary = ((group.head?.map (·.firstKey)).getD [], (group.getLast?.map (·.lastKey)).getD []) := by
  obtain ⟨node, -, rfl⟩ := h
  rfl

/-! ### Long keys -/

/-- A summary that alone reaches the minimum and the maximum chunk size. -/
def Bulky (options : TrackedStateTreeOptions) (summary : ChildSummary) : Prop :=
  options.minChunkBytes ≤ 64 + summary.firstKey.length + summary.lastKey.length ∧
    options.maxChunkBytes ≤ 64 + summary.firstKey.length + summary.lastKey.length

/-- One round over bulky summaries: each is an internal node of its own, whose summary has the
same keys. -/
theorem buildInternalLevel_of_bulky {summaries : List ChildSummary}
    (hbulky : ∀ summary ∈ summaries, Bulky options summary) (level : ℕ)
    (chunks : PendingChunkBatchBuilder) :
    ∃ summaries' chunks',
      buildInternalLevel options boundaryTrigger hashBytes summaries level chunks =
        some (summaries', chunks') ∧ summaries'.map keysOf = summaries.map keysOf := by
  have hgroups : chunkInternalEntries options boundaryTrigger summaries level =
      summaries.map fun summary => [summary] :=
    chunk_of_large fun summary hsummary => by
      rw [estimate_singleton]
      exact hbulky summary hsummary
  have hne : ∀ group ∈ summaries.map (fun summary => [summary]), group ≠ [] := by simp
  obtain ⟨⟨summaries', chunks'⟩, hbuild⟩ := buildInternalGroups_isSome hashBytes hne chunks
  refine ⟨summaries', chunks', by rw [buildInternalLevel, hgroups, hbuild], ?_⟩
  have hspec := (buildInternalGroups_spec hashBytes hbuild).1
  rw [List.forall₂_map_right_iff] at hspec
  exact map_eq_map_of_forall₂ (fun summary child h => by
    rw [keysOf_of_internalSummaryOf h]; rfl) hspec

theorem bulky_of_keysOf_eq {options : TrackedStateTreeOptions} {summaries summaries' : List ChildSummary}
    (hkeys : summaries'.map keysOf = summaries.map keysOf)
    (hbulky : ∀ summary ∈ summaries, Bulky options summary) :
    ∀ summary ∈ summaries', Bulky options summary := by
  intro summary hsummary
  obtain ⟨child, hchild, hsame⟩ := exists_mem_of_map_eq hkeys hsummary
  simp only [keysOf, Prod.mk.injEq] at hsame
  unfold Bulky
  rw [← hsame.1, ← hsame.2]
  exact hbulky child hchild

/-- From two bulky summaries on, the level loop takes round after round, each building a level
as large as the one before. -/
theorem levelLoop_runs_of_bulky {summaries : List ChildSummary}
    (hbulky : ∀ summary ∈ summaries, Bulky options summary) (htwo : 1 < summaries.length)
    (height : ℕ) (chunks : PendingChunkBatchBuilder) :
    ∃ run : ℕ → List ChildSummary × PendingChunkBatchBuilder, run 0 = (summaries, chunks) ∧
      ∀ n, 1 < (run n).1.length ∧ (∀ summary ∈ (run n).1, Bulky options summary) ∧
        buildInternalLevel options boundaryTrigger hashBytes (run n).1 (height + n) (run n).2 =
          some (run (n + 1)) := by
  let run : ℕ → List ChildSummary × PendingChunkBatchBuilder := fun n => Nat.rec (summaries, chunks)
    (fun n state => (buildInternalLevel options boundaryTrigger hashBytes state.1 (height + n)
      state.2).getD state) n
  have hnext : ∀ n result, buildInternalLevel options boundaryTrigger hashBytes (run n).1 (height + n)
      (run n).2 = some result → buildInternalLevel options boundaryTrigger hashBytes (run n).1
        (height + n) (run n).2 = some (run (n + 1)) := by
    intro n result hresult
    show _ = some ((buildInternalLevel options boundaryTrigger hashBytes (run n).1 (height + n)
      (run n).2).getD (run n))
    rw [hresult]
    rfl
  have hround : ∀ n, 1 < (run n).1.length ∧ (∀ summary ∈ (run n).1, Bulky options summary) ∧
      buildInternalLevel options boundaryTrigger hashBytes (run n).1 (height + n) (run n).2 =
        some (run (n + 1)) := by
    intro n
    induction n with
    | zero =>
      obtain ⟨summaries', chunks', hbuild, -⟩ :=
        buildInternalLevel_of_bulky options boundaryTrigger hashBytes hbulky (height + 0) chunks
      exact ⟨htwo, hbulky, hnext 0 _ hbuild⟩
    | succ n ih =>
      obtain ⟨hlength, hbulkyN, hbuildN⟩ := ih
      obtain ⟨summaries', chunks', hbuild, hkeys⟩ :=
        buildInternalLevel_of_bulky options boundaryTrigger hashBytes hbulkyN (height + n) (run n).2
      rw [hbuildN, Option.some.injEq] at hbuild
      replace hkeys : (run (n + 1)).1.map keysOf = (run n).1.map keysOf := by rw [hbuild]; exact hkeys
      have hlength' : 1 < (run (n + 1)).1.length := by
        rw [length_eq_of_map_eq hkeys]
        exact hlength
      have hbulky' := bulky_of_keysOf_eq hkeys hbulkyN
      obtain ⟨summaries'', chunks'', hbuild', -⟩ := buildInternalLevel_of_bulky options
        boundaryTrigger hashBytes hbulky' (height + (n + 1)) (run (n + 1)).2
      exact ⟨hlength', hbulky', hnext (n + 1) _ hbuild'⟩
  exact ⟨run, rfl, hround⟩

theorem buildLevels_eq_none_of_bulky (fuel : ℕ) : ∀ {summaries : List ChildSummary},
    (∀ summary ∈ summaries, Bulky options summary) → 1 < summaries.length →
      ∀ height chunks, buildLevels options boundaryTrigger hashBytes fuel summaries height chunks = none := by
  induction fuel with
  | zero => intro _ _ _ _ _; rfl
  | succ fuel ih =>
    intro summaries hbulky htwo height chunks
    obtain ⟨summaries', chunks', hbuild, hkeys⟩ :=
      buildInternalLevel_of_bulky options boundaryTrigger hashBytes hbulky height chunks
    have htwo' : 1 < summaries'.length := by
      rw [length_eq_of_map_eq hkeys]
      exact htwo
    rw [buildLevels, if_pos htwo, hbuild]
    exact ih (bulky_of_keysOf_eq hkeys hbulky) htwo' (height + 1) chunks'

/-- The summaries of one leaf level keep the keys at the ends of their groups. -/
theorem keysOf_of_leafSummaryOf {hashBytes : List UInt8 → Vector UInt8 trackedStateHashBytes}
    {summary : ChildSummary} {group : List EncodedLeafEntry} (h : LeafSummaryOf hashBytes summary group) :
    keysOf summary = ((group.head?.map (·.key)).getD [], (group.getLast?.map (·.key)).getD []) := by
  obtain ⟨node, -, rfl⟩ := h
  rfl

/-- Entries with keys so long that no two fit in one leaf are leaves of their own. -/
theorem chunkLeafEntries_of_long_keys {entries : List EncodedLeafEntry} (hne : entries ≠ [])
    (hlong : ∀ entry ∈ entries, options.maxChunkBytes < 2 * entry.key.length + 34) :
    chunkLeafEntries options boundaryTrigger entries = entries.map fun entry => [entry] := by
  rw [chunkLeafEntries, if_neg (by simpa using hne)]
  refine chunk_of_no_pairs fun first hfirst second hsecond => ?_
  have hfirstLong := hlong first hfirst
  have hsecondLong := hlong second hsecond
  simp only [estimateLeafBoundaryChunkSize, estimateLeafChunkSize, List.length_cons,
    List.length_nil, List.map_cons, List.map_nil, List.sum_cons, List.sum_nil]
  omega

/-- The leaf level of entries with long keys: one bulky summary per entry. -/
theorem buildLeafLevel_of_long_keys {entries : List EncodedLeafEntry} (hne : entries ≠ [])
    (hoptions : options.minChunkBytes ≤ options.maxChunkBytes)
    (hlengths : ∀ entry ∈ entries,
      valueMinBytes ≤ entry.value.length ∧ entry.value.length ≤ valueMaxBytes)
    (hlong : ∀ entry ∈ entries, options.maxChunkBytes < 2 * entry.key.length + 34)
    (chunks : PendingChunkBatchBuilder) :
    ∃ summaries chunks', buildLeafLevel options boundaryTrigger hashBytes entries chunks =
      some (summaries, chunks') ∧ summaries.length = entries.length ∧
        ∀ summary ∈ summaries, Bulky options summary := by
  have hgroups := chunkLeafEntries_of_long_keys options boundaryTrigger hne hlong
  have hencode : ∀ group ∈ entries.map (fun entry => [entry]), (encodeLeafNode group).isSome := by
    simp only [List.mem_map]
    rintro _ ⟨entry, hentry, rfl⟩
    exact encodeLeafNode_isSome_of_lengths (by simpa using hlengths entry hentry)
  obtain ⟨⟨summaries, chunks'⟩, hbuild⟩ := buildLeafGroups_isSome hashBytes hencode chunks
  refine ⟨summaries, chunks', by rw [buildLeafLevel, hgroups, hbuild], ?_, ?_⟩
  · simpa using (buildLeafGroups_spec hashBytes hbuild).1.length_eq
  · -- a one-entry leaf has the entry's key at both ends
    have hkeys : summaries.map keysOf = entries.map fun entry => (entry.key, entry.key) :=
      map_eq_map_of_forall₂ (fun summary entry h => by rw [keysOf_of_leafSummaryOf h]; rfl)
        (List.forall₂_map_right_iff.mp (buildLeafGroups_spec hashBytes hbuild).1)
    intro summary hsummary
    obtain ⟨entry, hentry, hsame⟩ := exists_mem_of_map_eq hkeys hsummary
    simp only [keysOf, Prod.mk.injEq] at hsame
    have hentryLong := hlong entry hentry
    unfold Bulky
    rw [← hsame.1, ← hsame.2]
    omega

/-- Rows whose keys are too long to share a leaf, or an internal node, keep the level loop of a
fresh tree going forever: the leaf level and every round after it succeed, and every round
leaves at least two summaries. Whatever the fuel, the model of `apply_sorted_frontier` runs out
of it. -/
theorem applySortedFrontierFresh_runs_forever_of_long_keys {events : List FrontierMutation}
    (hoptions : options.minChunkBytes ≤ options.maxChunkBytes)
    (hsorted : events.IsChain fun left right => compare left.key right.key = .lt)
    (hlengths : ∀ event ∈ events,
      valueMinBytes ≤ event.value.length ∧ event.value.length ≤ valueMaxBytes)
    (hlong : ∀ event ∈ events, options.maxChunkBytes < 2 * event.key.length + 34)
    (htwo : 1 < events.length) :
    (∃ run : ℕ → List ChildSummary × PendingChunkBatchBuilder,
      buildLeafLevel options boundaryTrigger hashBytes (events.map FrontierMutation.entry) ⟨[]⟩ =
          some (run 0) ∧
        ∀ n, 1 < (run n).1.length ∧
          buildInternalLevel options boundaryTrigger hashBytes (run n).1 (1 + n) (run n).2 =
            some (run (n + 1))) ∧
      ∀ fuel, applySortedFrontierFresh options boundaryTrigger hashBytes fuel events = none := by
  have hne : events.map FrontierMutation.entry ≠ [] := by
    rw [Ne, List.map_eq_nil_iff]
    rintro rfl
    cases htwo
  obtain ⟨summaries, chunks, hleaf, hlength, hbulky⟩ := buildLeafLevel_of_long_keys options
    boundaryTrigger hashBytes hne hoptions (by simpa [FrontierMutation.entry] using hlengths)
    (by simpa [FrontierMutation.entry] using hlong) ⟨[]⟩
  rw [List.length_map] at hlength
  obtain ⟨run, hrun0, hrun⟩ := levelLoop_runs_of_bulky options boundaryTrigger hashBytes hbulky
    (hlength ▸ htwo) 1 chunks
  refine ⟨⟨run, hleaf.trans (congrArg some hrun0.symm), fun n => ⟨(hrun n).1, (hrun n).2.2⟩⟩, ?_⟩
  intro fuel
  have hcheck := (any_zip_tail_eq_false_iff events).mpr hsorted
  have hevents : events.isEmpty = false := by
    cases events with
    | nil => cases htwo
    | cons => rfl
  simp only [applySortedFrontierFresh, hcheck, hevents, Bool.false_eq_true, if_false, hleaf,
    Option.bind_eq_bind, Option.bind_some,
    buildLevels_eq_none_of_bulky options boundaryTrigger hashBytes fuel hbulky (hlength ▸ htwo),
    Option.bind_none]

end Levels

/-- Two rows with one-byte keys, under options whose maximum chunk size is below that of any
two-entry leaf: a thousand rounds of the level loop are not enough. -/
theorem applySortedFrontierFresh_runs_forever_of_long_keys_sample :
    applySortedFrontierFresh ⟨0, 0, 34⟩ (fun _ _ _ _ _ => false)
      (fun _ => Vector.replicate trackedStateHashBytes 0) 1000
        [⟨[1], List.replicate valueMinBytes 0⟩, ⟨[2], List.replicate valueMinBytes 0⟩] = none :=
  (applySortedFrontierFresh_runs_forever_of_long_keys ⟨0, 0, 34⟩ (fun _ _ _ _ _ => false)
    (fun _ => Vector.replicate trackedStateHashBytes 0) (by decide) (by decide) (by decide)
    (by decide) (by decide)).2 1000

end Lix.Tree
