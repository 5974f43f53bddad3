import Lix.NodeCodecReaders

/-! The internal node format. An internal node as the tree builds it has at least one child,
each child's key range is not inverted and covers a nonempty subtree, and each range starts
after the one before ends. Such a node reads back from its encoding on every target whose
`usize` holds its length; and whatever the decoder accepts is such a node, since it checks
each of these conditions as it reads. -/
namespace Lix.NodeCodec
open ExceptSpec FrontCoding ListWindow
open Varint hiding readVarint

/-- A child as the tree keeps it: its key range is not inverted and its subtree is not empty. -/
def ChildSummary.WellFormed (child : ChildSummary) : Prop :=
  compare child.firstKey child.lastKey ≠ .gt ∧ child.subtreeCount ≠ 0

instance : DecidablePred ChildSummary.WellFormed :=
  fun _ => inferInstanceAs (Decidable (_ ∧ _))

/-- Each child's range ends before the next one starts. -/
def ChildrenOrdered (children : List ChildSummary) : Prop :=
  children.IsChain fun left right => compare left.lastKey right.firstKey = .lt

instance : DecidablePred ChildrenOrdered :=
  fun _ => inferInstanceAs (Decidable (List.IsChain _ _))

/-- The children of an internal node as the tree builds it. -/
def WellFormedChildren (children : List ChildSummary) : Prop :=
  children ≠ [] ∧ (∀ child ∈ children, child.WellFormed) ∧ ChildrenOrdered children

instance : DecidablePred WellFormedChildren :=
  fun _ => inferInstanceAs (Decidable (_ ∧ _ ∧ _))

/-! ## Encoding -/

/-- Every child takes at least one byte, so there are no more children than bytes. -/
theorem length_le_writeInternalChildren :
    ∀ (base : List UInt8) (children : List ChildSummary),
      children.length ≤ (writeInternalChildren base children).length
  | _, [] => le_refl 0
  | base, child :: children => by
    have hrest := length_le_writeInternalChildren child.lastKey children
    have hfirst := List.length_pos_of_ne_nil (writeFrontCoded_ne_nil base child.firstKey)
    simp only [writeInternalChildren, List.length_append, List.length_cons]
    omega

/-- A child rebuilt from the parts the decoder reads is the child. -/
theorem childSummary_of_parts (child : ChildSummary)
    (h : child.childHash.toList.toArray.size = trackedStateHashBytes) :
    (⟨child.firstKey, child.lastKey, ⟨child.childHash.toList.toArray, h⟩,
      UInt64.ofNat child.subtreeCount.toNat⟩ : ChildSummary) = child := by
  cases child
  simp only [ChildSummary.mk.injEq, true_and, UInt64.ofNat_toNat, and_true]
  rfl

section RoundTrip

variable {usizeBits : ℕ}

/-- The child loop reads back what the encoder's child loop wrote. The invariant: the decoder's
previous last key is the encoder's base, it is no longer than the offset (so every length read
fits), and it is before the first child. -/
theorem decodeInternalChildren_writeInternalChildren {body rest : List UInt8}
    (hfits : body.length < 2 ^ usizeBits) (husize : usizeBits ≤ 64) :
    ∀ (children : List ChildSummary) {offset : ℕ} {previous : Option (List UInt8)}
      {base : List UInt8}, previous.getD [] = base → base.length ≤ offset →
      (∀ child ∈ children, child.WellFormed) → ChildrenOrdered children →
      (∀ p ∈ previous, ∀ child ∈ children.head?, compare p child.firstKey = .lt) →
      body.drop offset = writeInternalChildren base children ++ rest →
      decodeInternalChildren usizeBits body children.length offset previous =
        .ok (children, offset + (writeInternalChildren base children).length)
  | [], offset, previous, base, _, _, _, _, _, _ => by
    simp [decodeInternalChildren, writeInternalChildren]
  | child :: children, offset, previous, base, hbase, hlen, hchildren, hordered, hprevious,
      hbytes => by
    obtain ⟨hrange, hcount⟩ := hchildren child List.mem_cons_self
    have h1 : body.drop offset = writeFrontCoded base child.firstKey ++
        (writeFrontCoded child.firstKey child.lastKey ++ (child.childHash.toList ++
          (writeVarint child.subtreeCount.toNat ++
            (writeInternalChildren child.lastKey children ++ rest)))) := by
      rw [hbytes, writeInternalChildren]
      simp only [List.append_assoc]
    have h2 := drop_add_of_drop_eq h1
    have h3 := drop_add_of_drop_eq h2
    have h4 := drop_add_of_drop_eq h3
    have h5 := drop_add_of_drop_eq h4
    rw [Vector.length_toList] at h4 h5
    have hfirstLen := length_le_writeFrontCoded base child.firstKey
    have hlastLen := length_le_writeFrontCoded child.firstKey child.lastKey
    have hend := add_length_le_of_drop_eq h4 (writeVarint_ne_nil _)
    have hfirst := frontCodedInto_writeFrontCoded hbase hlen h1 hfits husize
    have hlast := frontCodedInto_writeFrontCoded
      (rfl : (some child.firstKey).getD [] = child.firstKey) (by rw [Option.getD_some]; omega) h2
      hfits husize
    rw [Option.getD_some] at hlast
    have hhash := slice_of_drop_eq internalNode Vector.length_toList h3 (by omega)
      hfits
    have hcountRead : readVarint body _ internalNode = _ :=
      readVarint_of_drop_eq (UInt64.toNat_lt _) h4
    have hnext := decodeInternalChildren_writeInternalChildren hfits husize children
      (rfl : (some child.lastKey).getD [] = child.lastKey) (by rw [Option.getD_some]; omega)
      (fun c hc => hchildren c (List.mem_cons_of_mem _ hc)) (List.isChain_cons.mp hordered).2
      (fun p hp c hc => by
        rw [Option.mem_def, Option.some_inj] at hp
        exact hp ▸ (List.isChain_cons.mp hordered).1 c hc) h5
    have hnotOverlap : (previous.any fun p => decide (compare p child.firstKey ≠ .lt)) = false := by
      cases previous with
      | none => rfl
      | some p => simpa using hprevious p rfl child rfl
    have hcount' : child.subtreeCount.toNat ≠ 0 := by
      intro hzero
      apply hcount
      rw [← UInt64.toNat_inj]
      simpa using hzero
    simp only [List.length_cons, decodeInternalChildren, hfirst, hlast, bind, Except.bind, hrange,
      hnotOverlap, hhash, hcountRead, hcount', hnext, pure, Except.pure, if_false,
      Bool.false_eq_true, childSummary_of_parts]
    simp only [Option.getD_some, writeInternalChildren, List.length_append, Vector.length_toList,
      Nat.add_assoc]

/-- A well-formed internal node body reads back. -/
theorem decodeInternalV4_writeInternalChildren {children : List ChildSummary} {body : List UInt8}
    (hwf : WellFormedChildren children)
    (hbody : body = writeVarint children.length ++ writeInternalChildren [] children)
    (hfits : body.length < 2 ^ usizeBits) (husize : usizeBits ≤ 64) :
    decodeInternalV4 usizeBits body = .ok ⟨children⟩ := by
  obtain ⟨hne, hchildren, hordered⟩ := hwf
  have hwritten := length_le_writeInternalChildren [] children
  have hlength : body.length =
      (writeVarint children.length).length + (writeInternalChildren [] children).length := by
    rw [hbody, List.length_append]
  obtain ⟨hcountUsize, hcount64⟩ :=
    lt_of_le_length (show children.length ≤ body.length by omega) hfits husize
  have h1 : body.drop 0 = writeVarint children.length ++ (writeInternalChildren [] children ++ []) := by
    rw [hbody, List.drop_zero, List.append_nil]
  have hloop := decodeInternalChildren_writeInternalChildren hfits husize children
    (rfl : (none : Option (List UInt8)).getD [] = []) (Nat.zero_le _) hchildren hordered
    (fun p hp => by cases hp) (drop_add_of_drop_eq h1)
  rw [zero_add, Option.getD_none, ← hlength] at hloop
  have hcount : children.length ≠ 0 := fun hzero => hne (List.length_eq_zero_iff.mp hzero)
  simp only [decodeInternalV4, readVarint_of_drop_eq hcount64 h1, bind, Except.bind,
    usizeFrom_of_lt hcountUsize, hcount, if_false, zero_add, hloop, ne_eq, not_true_eq_false,
    pure, Except.pure]

/-- An internal node as the tree builds it reads back from its encoding, on any target whose
`usize` holds the node's length. -/
theorem decodeNodeRef_encodeInternalNode {children : List ChildSummary} {bytes : List UInt8}
    (hwf : WellFormedChildren children) (hbytes : encodeInternalNode children = some bytes)
    (hfits : bytes.length < 2 ^ usizeBits) (husize : usizeBits ≤ 64) :
    decodeNodeRef usizeBits bytes = .ok (.internal ⟨children⟩) := by
  unfold encodeInternalNode at hbytes
  rw [if_neg hwf.1, Option.some_inj] at hbytes
  subst hbytes
  rw [List.length_cons] at hfits
  rw [decodeNodeRef, if_neg (by decide), if_pos rfl,
    decodeInternalV4_writeInternalChildren hwf rfl (by omega) husize]
  rfl

/-- Two children, the second's first key sharing two bytes with the first's last key. -/
def sampleChildren : List ChildSummary :=
  [⟨[1, 2], [1, 5], Vector.replicate 32 7, 3⟩, ⟨[1, 5, 0], [2], Vector.replicate 32 9, 1⟩]

theorem decodeNodeRef_encodeInternalNode_sample :
    WellFormedChildren sampleChildren ∧
      decodeNodeRef 32 ((encodeInternalNode sampleChildren).getD []) =
        .ok (.internal ⟨sampleChildren⟩) :=
  ⟨by decide, decodeNodeRef_encodeInternalNode (by decide) (by decide +kernel) (by decide +kernel)
    (by decide)⟩

end RoundTrip

/-! ## Decoding -/

section Accepted

variable {usizeBits : ℕ}

/-- The child loop accepts only children as the tree builds them: it checks each range, each
subtree count and each range against the one before, as it reads them. -/
theorem decodeInternalChildren_wellFormed {body : List UInt8} :
    ∀ {count offset offset' : ℕ} {previous : Option (List UInt8)} {children : List ChildSummary},
      decodeInternalChildren usizeBits body count offset previous = .ok (children, offset') →
      children.length = count ∧ (∀ child ∈ children, child.WellFormed) ∧
        ChildrenOrdered children ∧
        ∀ p ∈ previous, ∀ child ∈ children.head?, compare p child.firstKey = .lt
  | 0, _, _, _, _, h => by
    cases h
    simp [ChildrenOrdered]
  | count + 1, offset, offset', previous, children, h => by
    unfold decodeInternalChildren at h
    obtain ⟨⟨first, o1⟩, -, h⟩ := bind_eq_ok.mp h
    obtain ⟨⟨last, o2⟩, -, h⟩ := bind_eq_ok.mp h
    simp only at h
    obtain ⟨hrange, h⟩ := ite_throw_eq_ok.mp h
    obtain ⟨hoverlap, h⟩ := ite_throw_eq_ok.mp h
    obtain ⟨⟨hash, o3⟩, -, h⟩ := bind_eq_ok.mp h
    obtain ⟨⟨subtreeCount, o4⟩, hcountRead, h⟩ := bind_eq_ok.mp h
    simp only at h
    obtain ⟨hzero, h⟩ := ite_throw_eq_ok.mp h
    obtain ⟨⟨rest, o5⟩, hrest, h⟩ := bind_eq_ok.mp h
    simp only [pure, Except.pure, Except.ok.injEq, Prod.mk.injEq] at h
    obtain ⟨rfl, -⟩ := h
    obtain ⟨hlen, hwf, hordered, hhead⟩ := decodeInternalChildren_wellFormed hrest
    have h64 := (readVarint_bounds hcountRead).1
    refine ⟨by rw [List.length_cons, hlen], ?_, List.isChain_cons.mpr ⟨hhead last rfl, hordered⟩, ?_⟩
    · intro child hchild
      rcases List.mem_cons.mp hchild with rfl | hchild
      · refine ⟨hrange, fun hcount => hzero ?_⟩
        have htoNat := congrArg UInt64.toNat hcount
        rwa [UInt64.toNat_ofNat_of_lt' h64] at htoNat
      · exact hwf child hchild
    · intro p hp child hchild
      rw [List.head?_cons, Option.mem_def, Option.some_inj] at hchild
      rw [Option.mem_def] at hp
      subst hchild hp
      simpa using hoverlap

/-- The internal decoder accepts only internal nodes as the tree builds them. -/
theorem decodeInternalV4_wellFormed {body : List UInt8} {node : DecodedInternalNode}
    (h : decodeInternalV4 usizeBits body = .ok node) : WellFormedChildren node.children := by
  unfold decodeInternalV4 at h
  obtain ⟨⟨childCount, o1⟩, -, h⟩ := bind_eq_ok.mp h
  obtain ⟨childCount', -, h⟩ := bind_eq_ok.mp h
  obtain ⟨hnonzero, h⟩ := ite_throw_eq_ok.mp h
  obtain ⟨⟨children, o2⟩, hchildren, h⟩ := bind_eq_ok.mp h
  simp only at h
  obtain ⟨-, h⟩ := ite_throw_eq_ok.mp h
  simp only [pure, Except.pure, Except.ok.injEq] at h
  subst h
  obtain ⟨hlen, hwf, hordered, -⟩ := decodeInternalChildren_wellFormed hchildren
  refine ⟨fun hnil => hnonzero ?_, hwf, hordered⟩
  rw [← hlen]
  exact List.length_eq_zero_iff.mpr hnil

/-- Whatever the node decoder accepts as an internal node is one as the tree builds it. -/
theorem decodeNodeRef_internal_wellFormed {bytes : List UInt8} {node : DecodedInternalNode}
    (h : decodeNodeRef usizeBits bytes = .ok (.internal node)) : WellFormedChildren node.children := by
  unfold decodeNodeRef at h
  rcases bytes with _ | ⟨kind, body⟩
  · cases h
  simp only at h
  by_cases hleaf : kind = nodeKindLeafV4
  · rw [if_pos hleaf] at h
    obtain ⟨_, -, h⟩ := map_eq_ok.mp h
    cases h
  rw [if_neg hleaf] at h
  by_cases hinternal : kind = nodeKindInternalV4
  · rw [if_pos hinternal] at h
    obtain ⟨node', hnode, h⟩ := map_eq_ok.mp h
    cases h
    exact decodeInternalV4_wellFormed hnode
  rw [if_neg hinternal] at h
  by_cases hdirect : kind = nodeKindDirectLeafV1
  · rw [if_pos hdirect] at h
    obtain ⟨_, -, h⟩ := map_eq_ok.mp h
    cases h
  rw [if_neg hdirect] at h
  cases h

theorem decodeNodeRef_internal_wellFormed_sample :
    decodeNodeRef 32 ((encodeInternalNode sampleChildren).getD []) =
        .ok (.internal ⟨sampleChildren⟩) ∧ WellFormedChildren sampleChildren :=
  have h : decodeNodeRef 32 ((encodeInternalNode sampleChildren).getD []) =
      .ok (.internal ⟨sampleChildren⟩) := by decide +kernel
  ⟨h, decodeNodeRef_internal_wellFormed h⟩

end Accepted

end Lix.NodeCodec
