import Lix.NodeCodecDirect
import Lix.Chunking

/-! How `tracked_state/tree.rs` builds a tree bottom up from sorted entries, as
`apply_sorted_frontier` does when there is no base root. The entries are cut into leaves by
`chunk_leaf_entries`; each leaf is encoded, staged by its hash and summarised by its first and
last key, its hash and its row count. While a level has more than one summary, the summaries
are cut into internal nodes by `chunk_internal_entries` and summarised the same way. The one
summary left is the root.

Both cuts are the content-defined chunking of `Lix.Chunking`, with the builder's size estimates
and `boundary_trigger`, which hashes a key with xxh3 against a probability and is the parameter
`boundaryTrigger` here. Node hashes are BLAKE3, the parameter `hashBytes`. A chunk batch is
its chunks in the order they were first staged, each with the bytes its span of the data arena
holds. A panic (an encoder's assertion) is `none`; so is running out of `fuel`, which bounds the
level loop: that loop need not end, see `Lix.TreeLevels`. -/
namespace Lix.Tree
open NodeCodec KeyCodec Chunking LexCompare

structure TrackedStateTreeOptions where
  targetChunkBytes : ℕ
  minChunkBytes : ℕ
  maxChunkBytes : ℕ
  deriving DecidableEq, Repr

/-- `TrackedStateTreeOptions::default`. -/
def TrackedStateTreeOptions.default : TrackedStateTreeOptions := ⟨4 * 1024, 512, 16 * 1024⟩

def estimateLeafChunkSize (entryCount keyBytes valueBytes : ℕ) : ℕ :=
  10 + entryCount * 12 + keyBytes + valueBytes

def estimateLeafBoundaryChunkSize (entryCount keyBytes : ℕ) : ℕ :=
  estimateLeafChunkSize entryCount keyBytes 0

def estimateLeafBoundaryEntrySize (keyBytes : ℕ) : ℕ := 12 + keyBytes

/-- `estimate_internal_chunk_size`; `size_of::<u64>()` is 8. -/
def estimateInternalChunkSize (childCount firstKeyBytes lastKeyBytes : ℕ) : ℕ :=
  16 + childCount * (8 + trackedStateHashBytes + 8) + firstKeyBytes + lastKeyBytes

/-- A mutation at the frontier: one encoded key and its encoded value. -/
structure FrontierMutation where
  key : List UInt8
  value : List UInt8
  deriving DecidableEq, Repr

/-- The leaf entry `apply_sorted_frontier` makes of an event. -/
def FrontierMutation.entry (event : FrontierMutation) : EncodedLeafEntry := ⟨event.key, event.value⟩

/-- `PendingChunkBatchBuilder`: each staged chunk's hash with its bytes. -/
structure PendingChunkBatchBuilder where
  chunks : List (Vector UInt8 trackedStateHashBytes × List UInt8)
  deriving DecidableEq, Repr

namespace PendingChunkBatchBuilder

/-- The bytes staged under a hash. -/
def lookup (builder : PendingChunkBatchBuilder) (hash : Vector UInt8 trackedStateHashBytes) :
    Option (List UInt8) :=
  (builder.chunks.find? fun chunk => chunk.1 = hash).map Prod.snd

/-- `chunks.data.len()`: the staged bytes. -/
def dataLength (builder : PendingChunkBatchBuilder) : ℕ :=
  (builder.chunks.map fun chunk => chunk.2.length).sum

/-- `insert_node`: a node is staged unless a chunk of its hash already is. -/
def insertNode (hashBytes : List UInt8 → Vector UInt8 trackedStateHashBytes)
    (builder : PendingChunkBatchBuilder) (node firstKey lastKey : List UInt8) (subtreeCount : UInt64) :
    ChildSummary × PendingChunkBatchBuilder :=
  let hash := hashBytes node
  let builder := if (builder.lookup hash).isSome then builder else ⟨builder.chunks ++ [(hash, node)]⟩
  (⟨firstKey, lastKey, hash, subtreeCount⟩, builder)

/-- Staging only ever appends a node under its hash. -/
theorem insertNode_chunks (hashBytes : List UInt8 → Vector UInt8 trackedStateHashBytes)
    (builder : PendingChunkBatchBuilder) (node firstKey lastKey : List UInt8) (subtreeCount : UInt64) :
    (builder.insertNode hashBytes node firstKey lastKey subtreeCount).2.chunks = builder.chunks ∨
      (builder.insertNode hashBytes node firstKey lastKey subtreeCount).2.chunks =
        builder.chunks ++ [(hashBytes node, node)] := by
  unfold insertNode
  dsimp only
  split
  · exact .inl rfl
  · exact .inr rfl

end PendingChunkBatchBuilder

/-- The chunks of `chunks'` are those of `chunks` and then some of `nodes`, each under its
hash. -/
def Staged (hashBytes : List UInt8 → Vector UInt8 trackedStateHashBytes)
    (chunks chunks' : PendingChunkBatchBuilder) (nodes : List (List UInt8)) : Prop :=
  ∃ added, chunks'.chunks = chunks.chunks ++ added ∧ ∀ chunk ∈ added, chunk.1 = hashBytes chunk.2 ∧ chunk.2 ∈ nodes

theorem Staged.refl (hashBytes : List UInt8 → Vector UInt8 trackedStateHashBytes)
    (chunks : PendingChunkBatchBuilder) (nodes : List (List UInt8)) : Staged hashBytes chunks chunks nodes :=
  ⟨[], by simp, by simp⟩

theorem Staged.trans {hashBytes : List UInt8 → Vector UInt8 trackedStateHashBytes}
    {chunks chunks' chunks'' : PendingChunkBatchBuilder} {nodes nodes' : List (List UInt8)}
    (h : Staged hashBytes chunks chunks' nodes) (h' : Staged hashBytes chunks' chunks'' nodes') :
    Staged hashBytes chunks chunks'' (nodes ++ nodes') := by
  obtain ⟨added, hchunks, hadded⟩ := h
  obtain ⟨added', hchunks', hadded'⟩ := h'
  refine ⟨added ++ added', by rw [hchunks', hchunks, List.append_assoc], ?_⟩
  intro chunk hchunk
  rcases List.mem_append.mp hchunk with hchunk | hchunk
  · exact ⟨(hadded chunk hchunk).1, List.mem_append_left _ (hadded chunk hchunk).2⟩
  · exact ⟨(hadded' chunk hchunk).1, List.mem_append_right _ (hadded' chunk hchunk).2⟩

theorem Staged.insertNode (hashBytes : List UInt8 → Vector UInt8 trackedStateHashBytes)
    (chunks : PendingChunkBatchBuilder) (node firstKey lastKey : List UInt8) (subtreeCount : UInt64) :
    Staged hashBytes chunks (chunks.insertNode hashBytes node firstKey lastKey subtreeCount).2 [node] := by
  rcases PendingChunkBatchBuilder.insertNode_chunks hashBytes chunks node firstKey lastKey
    subtreeCount with h | h
  · exact ⟨[], by rw [h, List.append_nil], by simp⟩
  · exact ⟨[(hashBytes node, node)], h, by simp⟩

/-- `TrackedStateApplyResult`. -/
structure TrackedStateApplyResult where
  rootId : Vector UInt8 trackedStateHashBytes
  rowCount : ℕ
  treeHeight : ℕ
  chunkCount : ℕ
  chunkBytes : ℕ
  deriving DecidableEq, Repr

section Build

variable (options : TrackedStateTreeOptions)
  (boundaryTrigger : List UInt8 → ℕ → ℕ → ℕ → ℕ → Bool)
  (hashBytes : List UInt8 → Vector UInt8 trackedStateHashBytes)

/-- `chunk_leaf_entries`. A `LeafChunkAccumulator` is the entries it holds; its `key_bytes` is
the sum of their key lengths. No entries make one empty leaf. -/
def chunkLeafEntries (entries : List EncodedLeafEntry) : List (List EncodedLeafEntry) :=
  if entries.isEmpty then [[]]
  else
    chunk (fun group => estimateLeafBoundaryChunkSize group.length (group.map (·.key.length)).sum)
      (fun entry currentSize => boundaryTrigger entry.key 0 currentSize
        (estimateLeafBoundaryEntrySize entry.key.length) options.targetChunkBytes)
      options.minChunkBytes options.maxChunkBytes entries

/-- `chunk_internal_entries`. An `InternalChunkAccumulator` is the children it holds; its key
byte counts are the sums of their first and last key lengths. -/
def chunkInternalEntries (children : List ChildSummary) (level : ℕ) : List (List ChildSummary) :=
  chunk (fun group => estimateInternalChunkSize group.length (group.map (·.firstKey.length)).sum
      (group.map (·.lastKey.length)).sum)
    (fun child currentSize => boundaryTrigger child.firstKey level currentSize
      (child.firstKey.length + child.lastKey.length + trackedStateHashBytes + 8)
      options.targetChunkBytes)
    options.minChunkBytes options.maxChunkBytes children

/-- The summaries `build_leaf_level` makes of its groups, in order, staging each leaf. -/
def buildLeafGroups :
    List (List EncodedLeafEntry) → PendingChunkBatchBuilder →
      Option (List ChildSummary × PendingChunkBatchBuilder)
  | [], chunks => some ([], chunks)
  | group :: groups, chunks => do
    let node ← encodeLeafNode group
    let (summary, chunks) := chunks.insertNode hashBytes node ((group.head?.map (·.key)).getD [])
      ((group.getLast?.map (·.key)).getD []) group.length.toUInt64
    let (summaries, chunks) ← buildLeafGroups groups chunks
    return (summary :: summaries, chunks)

def buildLeafLevel (entries : List EncodedLeafEntry) (chunks : PendingChunkBatchBuilder) :
    Option (List ChildSummary × PendingChunkBatchBuilder) :=
  buildLeafGroups hashBytes (chunkLeafEntries options boundaryTrigger entries) chunks

/-- The summaries `build_internal_level` makes of its groups. The row count is the `u64` sum
of the children's, which wraps here where the source would overflow. -/
def buildInternalGroups :
    List (List ChildSummary) → PendingChunkBatchBuilder →
      Option (List ChildSummary × PendingChunkBatchBuilder)
  | [], chunks => some ([], chunks)
  | group :: groups, chunks => do
    let subtreeCount := (group.map (·.subtreeCount)).sum
    let node ← encodeInternalNode group
    let (summary, chunks) := chunks.insertNode hashBytes node
      ((group.head?.map (·.firstKey)).getD []) ((group.getLast?.map (·.lastKey)).getD []) subtreeCount
    let (summaries, chunks) ← buildInternalGroups groups chunks
    return (summary :: summaries, chunks)

def buildInternalLevel (children : List ChildSummary) (level : ℕ) (chunks : PendingChunkBatchBuilder) :
    Option (List ChildSummary × PendingChunkBatchBuilder) :=
  buildInternalGroups hashBytes (chunkInternalEntries options boundaryTrigger children level) chunks

/-- The `while summaries.len() > 1` loop: the summaries left, the height reached and the
chunks staged. -/
def buildLevels : ℕ → List ChildSummary → ℕ → PendingChunkBatchBuilder →
    Option (List ChildSummary × ℕ × PendingChunkBatchBuilder)
  | 0, _, _, _ => none
  | fuel + 1, summaries, height, chunks =>
    if 1 < summaries.length then do
      let (summaries, chunks) ← buildInternalLevel options boundaryTrigger hashBytes summaries height chunks
      buildLevels fuel summaries (height + 1) chunks
    else some (summaries, height, chunks)

/-- The error `apply_sorted_frontier` returns for events out of order or repeated. -/
def unsortedFrontierError : LixError :=
  ⟨"LIX_INTERNAL_ERROR", "tracked-state mutation frontier requires sorted unique keys"⟩

/-- The frontier check passes exactly when the keys strictly increase. -/
theorem any_zip_tail_eq_false_iff (events : List FrontierMutation) :
    ((events.zip events.tail).any fun pair => compare pair.1.key pair.2.key ≠ .lt) = false ↔
      events.IsChain fun left right => compare left.key right.key = .lt := by
  match events with
  | [] => simp
  | [_] => simp
  | first :: second :: rest =>
    have ih := any_zip_tail_eq_false_iff (second :: rest)
    simp only [List.tail_cons, List.zip_cons_cons, List.any_cons, Bool.or_eq_false_iff,
      decide_eq_false_iff_not, not_not, List.isChain_cons_cons] at ih ⊢
    rw [ih]

/-- `apply_sorted_frontier` without a base root: the result and the chunks it stages. -/
def applySortedFrontierFresh (fuel : ℕ) (events : List FrontierMutation) :
    Option (Except LixError (TrackedStateApplyResult × PendingChunkBatchBuilder)) :=
  if (events.zip events.tail).any fun pair => compare pair.1.key pair.2.key ≠ .lt then
    some (.error unsortedFrontierError)
  else if events.isEmpty then do
    let (summaries, chunks) ← buildLeafLevel options boundaryTrigger hashBytes [] ⟨[]⟩
    match summaries.getLast? with
    | none => some (.error ⟨"LIX_INTERNAL_ERROR", "empty tracked-state frontier produced no root"⟩)
    | some root =>
      some (.ok (⟨root.childHash, 0, 1, chunks.chunks.length, chunks.dataLength⟩, chunks))
  else do
    let entries := events.map FrontierMutation.entry
    let (summaries, chunks) ← buildLeafLevel options boundaryTrigger hashBytes entries ⟨[]⟩
    let (summaries, height, chunks) ← buildLevels options boundaryTrigger hashBytes fuel summaries 1 chunks
    match summaries.getLast? with
    | none => some (.error ⟨"LIX_INTERNAL_ERROR", "tracked-state frontier produced no root"⟩)
    | some root =>
      some (.ok (⟨root.childHash, root.subtreeCount.toNat, height, chunks.chunks.length,
        chunks.dataLength⟩, chunks))

/-! ### One level -/

/-- The summary `build_leaf_level` makes of a group, whose encoding is staged. -/
def LeafSummaryOf (summary : ChildSummary) (group : List EncodedLeafEntry) : Prop :=
  ∃ node, encodeLeafNode group = some node ∧
    summary = ⟨(group.head?.map (·.key)).getD [], (group.getLast?.map (·.key)).getD [],
      hashBytes node, group.length.toUInt64⟩

/-- The summary `build_internal_level` makes of a group of children. -/
def InternalSummaryOf (summary : ChildSummary) (group : List ChildSummary) : Prop :=
  ∃ node, encodeInternalNode group = some node ∧
    summary = ⟨(group.head?.map (·.firstKey)).getD [], (group.getLast?.map (·.lastKey)).getD [],
      hashBytes node, (group.map (·.subtreeCount)).sum⟩

theorem buildLeafGroups_spec {groups : List (List EncodedLeafEntry)}
    {chunks chunks' : PendingChunkBatchBuilder} {summaries : List ChildSummary}
    (h : buildLeafGroups hashBytes groups chunks = some (summaries, chunks')) :
    List.Forall₂ (LeafSummaryOf hashBytes) summaries groups ∧
      Staged hashBytes chunks chunks' (groups.filterMap encodeLeafNode) := by
  induction groups generalizing chunks summaries with
  | nil =>
    simp only [buildLeafGroups, Option.some.injEq, Prod.mk.injEq] at h
    obtain ⟨rfl, rfl⟩ := h
    exact ⟨.nil, Staged.refl _ _ _⟩
  | cons group groups ih =>
    simp only [buildLeafGroups, Option.bind_eq_bind, Option.bind_eq_some_iff] at h
    obtain ⟨node, hnode, ⟨rest, restChunks⟩, hrest, h⟩ := h
    simp only [Option.pure_def, Option.some.injEq, Prod.mk.injEq] at h
    obtain ⟨rfl, rfl⟩ := h
    obtain ⟨hsummaries, hstaged⟩ := ih hrest
    refine ⟨.cons ⟨node, hnode, rfl⟩ hsummaries, ?_⟩
    rw [List.filterMap_cons_some hnode, ← List.singleton_append]
    exact (Staged.insertNode hashBytes chunks node _ _ _).trans hstaged

theorem buildLeafGroups_isSome {groups : List (List EncodedLeafEntry)}
    (hgroups : ∀ group ∈ groups, (encodeLeafNode group).isSome) (chunks : PendingChunkBatchBuilder) :
    ∃ result, buildLeafGroups hashBytes groups chunks = some result := by
  induction groups generalizing chunks with
  | nil => exact ⟨_, rfl⟩
  | cons group groups ih =>
    obtain ⟨node, hnode⟩ := Option.isSome_iff_exists.mp (hgroups group List.mem_cons_self)
    obtain ⟨rest, hrest⟩ := ih (fun group hgroup => hgroups group (List.mem_cons_of_mem _ hgroup))
      (chunks.insertNode hashBytes node ((group.head?.map (·.key)).getD [])
        ((group.getLast?.map (·.key)).getD []) group.length.toUInt64).2
    exact ⟨_, by simp [buildLeafGroups, hnode, hrest]; rfl⟩

theorem buildInternalGroups_spec {groups : List (List ChildSummary)}
    {chunks chunks' : PendingChunkBatchBuilder} {summaries : List ChildSummary}
    (h : buildInternalGroups hashBytes groups chunks = some (summaries, chunks')) :
    List.Forall₂ (InternalSummaryOf hashBytes) summaries groups ∧
      Staged hashBytes chunks chunks' (groups.filterMap encodeInternalNode) := by
  induction groups generalizing chunks summaries with
  | nil =>
    simp only [buildInternalGroups, Option.some.injEq, Prod.mk.injEq] at h
    obtain ⟨rfl, rfl⟩ := h
    exact ⟨.nil, Staged.refl _ _ _⟩
  | cons group groups ih =>
    simp only [buildInternalGroups, Option.bind_eq_bind, Option.bind_eq_some_iff] at h
    obtain ⟨node, hnode, ⟨rest, restChunks⟩, hrest, h⟩ := h
    simp only [Option.pure_def, Option.some.injEq, Prod.mk.injEq] at h
    obtain ⟨rfl, rfl⟩ := h
    obtain ⟨hsummaries, hstaged⟩ := ih hrest
    refine ⟨.cons ⟨node, hnode, rfl⟩ hsummaries, ?_⟩
    rw [List.filterMap_cons_some hnode, ← List.singleton_append]
    exact (Staged.insertNode hashBytes chunks node _ _ _).trans hstaged

theorem buildInternalGroups_isSome {groups : List (List ChildSummary)}
    (hgroups : ∀ group ∈ groups, group ≠ []) (chunks : PendingChunkBatchBuilder) :
    ∃ result, buildInternalGroups hashBytes groups chunks = some result := by
  induction groups generalizing chunks with
  | nil => exact ⟨_, rfl⟩
  | cons group groups ih =>
    obtain ⟨node, hnode⟩ : ∃ node, encodeInternalNode group = some node :=
      ⟨_, if_neg (hgroups group List.mem_cons_self)⟩
    obtain ⟨rest, hrest⟩ := ih (fun group hgroup => hgroups group (List.mem_cons_of_mem _ hgroup))
      (chunks.insertNode hashBytes node ((group.head?.map (·.firstKey)).getD [])
        ((group.getLast?.map (·.lastKey)).getD []) (group.map (·.subtreeCount)).sum).2
    exact ⟨_, by simp [buildInternalGroups, hnode, hrest]; rfl⟩

end Build

end Lix.Tree
