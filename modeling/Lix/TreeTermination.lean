import Lix.TreeLevels

/-! The level loop of the tree builder ends when the keys are short. A summary whose keys have at
most `bound` bytes is below the minimum chunk size alone and fits beside any other below the
maximum, so `chunk_internal_entries` closes no group of one child but the last, and each round
of `while summaries.len() > 1` at least halves the summaries. A tree of `n` rows is then built
within `n + 1` rounds, whatever `boundary_trigger` and the hash do. -/
namespace Lix.Tree
open NodeCodec Chunking

/-- The two ends of a group, as a summary records them, are the ends of members of the group. -/
theorem length_ends_le {α : Type*} {group : List α} {first last : α → List UInt8} {bound : ℕ}
    (hfirst : ∀ x ∈ group, (first x).length ≤ bound) (hlast : ∀ x ∈ group, (last x).length ≤ bound) :
    ((group.head?.map first).getD []).length ≤ bound ∧
      ((group.getLast?.map last).getD []).length ≤ bound := by
  constructor
  · cases hhead : group.head? with
    | none => simp
    | some x => simpa using hfirst x (List.mem_of_mem_head? hhead)
  · cases hlastX : group.getLast? with
    | none => simp
    | some x => simpa using hlast x (List.mem_of_getLast? hlastX)

section Termination

variable (options : TrackedStateTreeOptions)
  (boundaryTrigger : List UInt8 → ℕ → ℕ → ℕ → ℕ → Bool)
  (hashBytes : List UInt8 → Vector UInt8 trackedStateHashBytes)

/-- A summary whose two keys have at most `bound` bytes. -/
def Short (bound : ℕ) (summary : ChildSummary) : Prop :=
  summary.firstKey.length ≤ bound ∧ summary.lastKey.length ≤ bound

variable {options} {bound : ℕ} (hmin : 64 + 2 * bound < options.minChunkBytes)
  (hmax : 112 + 4 * bound ≤ options.maxChunkBytes)
include hmin hmax

/-- One round over short summaries succeeds, at least halves them, and leaves them short. -/
theorem buildInternalLevel_of_short {summaries : List ChildSummary}
    (hshort : ∀ summary ∈ summaries, Short bound summary) (level : ℕ)
    (chunks : PendingChunkBatchBuilder) :
    ∃ summaries' chunks',
      buildInternalLevel options boundaryTrigger hashBytes summaries level chunks =
          some (summaries', chunks') ∧
        2 * summaries'.length ≤ summaries.length + 1 ∧ ∀ summary ∈ summaries', Short bound summary := by
  have hhalf : 2 * (chunkInternalEntries options boundaryTrigger summaries level).length ≤
      summaries.length + 1 := by
    refine two_mul_length_chunk_le (fun child hchild => ?_) (fun first hfirst second hsecond => ?_)
    · have hchildShort := hshort child hchild
      rw [estimate_singleton]
      unfold Short at hchildShort
      omega
    · have hfirstShort := hshort first hfirst
      have hsecondShort := hshort second hsecond
      rw [estimate_pair]
      unfold Short at hfirstShort hsecondShort
      omega
  have hne : ∀ group ∈ chunkInternalEntries options boundaryTrigger summaries level, group ≠ [] :=
    ne_nil_of_mem_chunk
  obtain ⟨⟨summaries', chunks'⟩, hbuild⟩ := buildInternalGroups_isSome hashBytes hne chunks
  have hspec := (buildInternalGroups_spec hashBytes hbuild).1
  refine ⟨summaries', chunks', hbuild, hspec.length_eq ▸ hhalf, ?_⟩
  have hkeysAll : summaries'.map keysOf = (chunkInternalEntries options boundaryTrigger summaries
      level).map fun group =>
        ((group.head?.map (·.firstKey)).getD [], (group.getLast?.map (·.lastKey)).getD []) :=
    map_eq_map_of_forall₂ (fun _ _ h => keysOf_of_internalSummaryOf h) hspec
  intro summary hsummary
  obtain ⟨group, hgroup, hsame⟩ := exists_mem_of_map_eq hkeysAll hsummary
  have hmem : ∀ child ∈ group, child ∈ summaries := fun child hchild => by
    have hflat := List.mem_flatten_of_mem hgroup hchild
    rwa [chunkInternalEntries, flatten_chunk] at hflat
  have hends : ((group.head?.map (·.firstKey)).getD []).length ≤ bound ∧
      ((group.getLast?.map (·.lastKey)).getD []).length ≤ bound :=
    length_ends_le (fun child hchild => (hshort child (hmem child hchild)).1)
      (fun child hchild => (hshort child (hmem child hchild)).2)
  simp only [keysOf, Prod.mk.injEq] at hsame
  unfold Short
  rw [← hsame.1, ← hsame.2]
  exact hends

/-- Short summaries, at most `2 ^ fuel` of them, are built into one within `fuel + 1` rounds. -/
theorem buildLevels_isSome_of_short (fuel : ℕ) :
    ∀ {summaries : List ChildSummary}, (∀ summary ∈ summaries, Short bound summary) →
      summaries.length ≤ 2 ^ fuel → ∀ height chunks,
        ∃ result, buildLevels options boundaryTrigger hashBytes (fuel + 1) summaries height chunks =
          some result := by
  induction fuel with
  | zero =>
    intro summaries _ hlength height chunks
    rw [Nat.pow_zero] at hlength
    rw [buildLevels, if_neg (by omega)]
    exact ⟨_, rfl⟩
  | succ fuel ih =>
    intro summaries hshort hlength height chunks
    rw [buildLevels]
    split
    · obtain ⟨summaries', chunks', hbuild, hhalf, hshort'⟩ :=
        buildInternalLevel_of_short boundaryTrigger hashBytes hmin hmax hshort height chunks
      rw [Nat.pow_succ] at hlength
      rw [hbuild]
      exact ih hshort' (by omega) (height + 1) chunks'
    · exact ⟨_, rfl⟩

omit hmin hmax in
/-- The leaf groups hold the entries and nothing else, and there are at most `2 ^ n` of them. -/
theorem mem_of_mem_chunkLeafEntries {entries : List EncodedLeafEntry} :
    ∀ group ∈ chunkLeafEntries options boundaryTrigger entries, ∀ entry ∈ group, entry ∈ entries := by
  intro group hgroup entry hentry
  unfold chunkLeafEntries at hgroup
  split at hgroup
  · rw [List.mem_singleton] at hgroup
    subst hgroup
    cases hentry
  · have hflat := List.mem_flatten_of_mem hgroup hentry
    rwa [flatten_chunk] at hflat

omit hmin hmax in
theorem length_chunkLeafEntries_le (entries : List EncodedLeafEntry) :
    (chunkLeafEntries options boundaryTrigger entries).length ≤ 2 ^ entries.length := by
  unfold chunkLeafEntries
  split
  · exact Nat.one_le_two_pow
  · exact (length_chunk_le entries).trans (Nat.lt_two_pow_self).le

/-- With keys of at most `bound` bytes, `apply_sorted_frontier` on a fresh tree returns once it
may take one round more than there are rows. -/
theorem applySortedFrontierFresh_isSome_of_short_keys {events : List FrontierMutation}
    (hlengths : ∀ event ∈ events,
      valueMinBytes ≤ event.value.length ∧ event.value.length ≤ valueMaxBytes)
    (hkeys : ∀ event ∈ events, event.key.length ≤ bound) {fuel : ℕ} (hfuel : events.length < fuel) :
    (applySortedFrontierFresh options boundaryTrigger hashBytes fuel events).isSome := by
  have hentryLengths : ∀ entry ∈ events.map FrontierMutation.entry,
      valueMinBytes ≤ entry.value.length ∧ entry.value.length ≤ valueMaxBytes := by
    simpa [FrontierMutation.entry] using hlengths
  have hentryKeys : ∀ entry ∈ events.map FrontierMutation.entry, entry.key.length ≤ bound := by
    simpa [FrontierMutation.entry] using hkeys
  have hencode : ∀ group ∈ chunkLeafEntries options boundaryTrigger (events.map FrontierMutation.entry),
      (encodeLeafNode group).isSome := fun group hgroup =>
    encodeLeafNode_isSome_of_lengths fun entry hentry =>
      hentryLengths entry (mem_of_mem_chunkLeafEntries boundaryTrigger group hgroup entry hentry)
  obtain ⟨⟨summaries, chunks⟩, hleaf⟩ := buildLeafGroups_isSome hashBytes hencode ⟨[]⟩
  have hspec := (buildLeafGroups_spec hashBytes hleaf).1
  have hlength : summaries.length ≤ 2 ^ events.length := by
    rw [hspec.length_eq, ← List.length_map FrontierMutation.entry]
    exact length_chunkLeafEntries_le boundaryTrigger _
  have hleafKeys : summaries.map keysOf = (chunkLeafEntries options boundaryTrigger
      (events.map FrontierMutation.entry)).map fun group =>
        ((group.head?.map (·.key)).getD [], (group.getLast?.map (·.key)).getD []) :=
    map_eq_map_of_forall₂ (fun _ _ h => keysOf_of_leafSummaryOf h) hspec
  have hshort : ∀ summary ∈ summaries, Short bound summary := by
    intro summary hsummary
    obtain ⟨group, hgroup, hsame⟩ := exists_mem_of_map_eq hleafKeys hsummary
    have hends : ((group.head?.map (·.key)).getD []).length ≤ bound ∧
        ((group.getLast?.map (·.key)).getD []).length ≤ bound :=
      length_ends_le
        (fun entry hentry => hentryKeys entry (mem_of_mem_chunkLeafEntries boundaryTrigger group hgroup entry hentry))
        (fun entry hentry => hentryKeys entry (mem_of_mem_chunkLeafEntries boundaryTrigger group hgroup entry hentry))
    simp only [keysOf, Prod.mk.injEq] at hsame
    unfold Short
    rw [← hsame.1, ← hsame.2]
    exact hends
  obtain ⟨rounds, rfl⟩ : ∃ rounds, fuel = rounds + 1 := ⟨fuel - 1, by omega⟩
  have hpow : 2 ^ events.length ≤ 2 ^ rounds := Nat.pow_le_pow_right (by decide) (by omega)
  obtain ⟨⟨summaries', height, chunks'⟩, hlevels⟩ := buildLevels_isSome_of_short boundaryTrigger
    hashBytes hmin hmax rounds hshort (hlength.trans hpow) 1 chunks
  have hleafLevel : buildLeafLevel options boundaryTrigger hashBytes (events.map FrontierMutation.entry)
      ⟨[]⟩ = some (summaries, chunks) := hleaf
  unfold applySortedFrontierFresh
  split
  · rfl
  split
  · next hempty =>
    rw [List.isEmpty_iff] at hempty
    subst hempty
    rw [List.map_nil] at hleafLevel
    rw [hleafLevel]
    simp only [Option.bind_eq_bind, Option.bind_some]
    split <;> rfl
  · -- the `let entries` of the source is unfolded before the leaf level is read off
    dsimp only
    rw [hleafLevel]
    simp only [Option.bind_eq_bind, Option.bind_some, hlevels]
    split <;> rfl

end Termination

/-- Two rows under the default options, whose keys are far below the 223 bytes they allow. -/
theorem applySortedFrontierFresh_isSome_of_short_keys_sample :
    (applySortedFrontierFresh TrackedStateTreeOptions.default (fun _ _ _ _ _ => false)
      (fun _ => Vector.replicate trackedStateHashBytes 0) 3
        [⟨[1], List.replicate valueMinBytes 0⟩, ⟨[2], List.replicate valueMinBytes 0⟩]).isSome :=
  applySortedFrontierFresh_isSome_of_short_keys (fun _ _ _ _ _ => false)
    (fun _ => Vector.replicate trackedStateHashBytes 0)
    (by decide : 64 + 2 * 200 < TrackedStateTreeOptions.default.minChunkBytes) (by decide)
    (by decide) (by decide) (by decide)

end Lix.Tree
