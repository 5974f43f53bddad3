import Lix.NodeCodecLeaf

/-! The direct leaf layout, and the leaf format as a whole. A run of rows written by one commit
with consecutive change ids keeps the commit id once and the first packed change ordinal; the
decoder rebuilds each entry's change id from the commit id's first twelve bytes and the ordinal
counted up. It gives back each value exactly, because the encoder takes this layout only when
every value is made that way. With the v4 layout this gives the leaf round trip that
`verify_leaf_round_trip` checks in debug builds, under the debug assertions' own conditions on
the entries; and the decoder of either layout accepts only such entries. -/
namespace Lix.NodeCodec
open ExceptSpec FrontCoding ListWindow LexCompare
open Varint hiding readVarint

/-- What `direct_leaf_sequence` checks of the entry at `ordinal`. -/
def DirectAt (commitId : List UInt8) (firstPacked : ℕ) (entry : EncodedLeafEntry)
    (ordinal : ℕ) : Prop :=
  window entry.value valueCommitIdStart valueCommitIdEnd = commitId ∧
    entry.value.take 12 = commitId.take 12 ∧ ordinal < 2 ^ 32 ∧
    firstPacked + ordinal < 2 ^ 32 ∧
    fromBeBytes (window entry.value 12 valueChangeIdEnd) = firstPacked + ordinal

/-- A direct sequence: the entries are not empty and the one at each ordinal is made from the
commit id and the first packed ordinal. -/
theorem directLeafSequence_spec {entries : List EncodedLeafEntry} {commitId : List UInt8}
    {firstPacked : ℕ} (h : directLeafSequence entries = some (commitId, firstPacked)) :
    entries ≠ [] ∧ ∀ (ordinal : ℕ) (entry : EncodedLeafEntry), entries[ordinal]? = some entry →
      DirectAt commitId firstPacked entry ordinal := by
  unfold directLeafSequence at h
  rcases entries with _ | ⟨first, rest⟩
  · cases h
  simp only at h
  by_cases hprefix : (first.value.take valueChangeIdEnd).take 12 ≠
      (window first.value valueCommitIdStart valueCommitIdEnd).take 12
  · rw [if_pos hprefix] at h
    cases h
  rw [if_neg hprefix] at h
  split_ifs at h with hall
  simp only [Option.some.injEq, Prod.mk.injEq] at h
  obtain ⟨hcommitId, hfirstPacked⟩ := h
  refine ⟨List.cons_ne_nil _ _, fun ordinal entry hentry => ?_⟩
  have hcheck := List.all_eq_true.mp hall (entry, ordinal)
    (List.mem_zipIdx_iff_getElem?.mpr hentry)
  simp only [decide_eq_true_eq] at hcheck
  rw [← hcommitId, ← hfirstPacked]
  exact hcheck

/-- A stored value made the direct way is rebuilt by the direct decoder. -/
theorem DirectAt.value_eq {commitId : List UInt8} {firstPacked ordinal : ℕ}
    {entry : EncodedLeafEntry} (hdirect : DirectAt commitId firstPacked entry ordinal)
    (hvalue : IsValueRef entry.value) :
    commitId.take 12 ++ beBytes 4 (firstPacked + ordinal) ++ commitId ++
      entry.value.drop valueStateTailStart = entry.value := by
  obtain ⟨hcommitId, hprefix, -, -, hpacked⟩ := hdirect
  have hlong := hvalue.parts.2.2.2
  have hpackedBytes : beBytes 4 (firstPacked + ordinal) = window entry.value 12 valueChangeIdEnd := by
    have hlength : (window entry.value 12 valueChangeIdEnd).length = 4 := by
      rw [length_window]
      unfold valueChangeIdEnd
      unfold valueStateTailStart at hlong
      omega
    rw [← hpacked, ← hlength, beBytes_fromBeBytes]
  have hchange : entry.value.take 12 ++ window entry.value 12 valueChangeIdEnd =
      entry.value.take valueChangeIdEnd :=
    (take_eq_take_append_window entry.value (by decide)).symm
  rw [← hprefix, hpackedBytes, hchange, ← hcommitId]
  exact take_append_window_append_drop entry.value

/-- Every entry takes at least one byte, so there are no more entries than bytes. -/
theorem length_le_writeDirectLeafEntries (tailDictionary : List (List UInt8)) :
    ∀ (base : List UInt8) (entries : List EncodedLeafEntry),
      entries.length ≤ (writeDirectLeafEntries tailDictionary base entries).length
  | _, [] => le_refl 0
  | base, entry :: entries => by
    have hrest := length_le_writeDirectLeafEntries tailDictionary entry.key entries
    have hkey := List.length_pos_of_ne_nil (writeFrontCoded_ne_nil base entry.key)
    simp only [writeDirectLeafEntries, List.length_append, List.length_cons]
    omega

section Direct

variable {usizeBits : ℕ}

/-- The direct entry loop reads back what the encoder's direct loop wrote, the entry at each
ordinal made the direct way. -/
theorem decodeDirectLeafEntries_writeDirectLeafEntries {body rest commitId : List UInt8}
    {firstPacked : ℕ} {tailDictionary : List (List UInt8)}
    (htailLen : tailDictionary.length ≤ body.length) (hfits : body.length < 2 ^ usizeBits)
    (husize : usizeBits ≤ 64) :
    ∀ (entries : List EncodedLeafEntry) {ordinal offset : ℕ} {previous : Option (List UInt8)}
      {base : List UInt8}, previous.getD [] = base → base.length ≤ offset →
      (∀ entry ∈ entries, IsValueRef entry.value) → KeysOrdered entries →
      (∀ p ∈ previous, ∀ entry ∈ entries.head?, compare p entry.key = .lt) →
      (∀ (j : ℕ) (entry : EncodedLeafEntry), entries[j]? = some entry →
        DirectAt commitId firstPacked entry (ordinal + j)) →
      body.drop offset = writeDirectLeafEntries tailDictionary base entries ++ rest →
      decodeDirectLeafEntries usizeBits body commitId firstPacked tailDictionary entries.length
          ordinal offset previous =
        .ok (entries, offset + (writeDirectLeafEntries tailDictionary base entries).length)
  | [], ordinal, offset, previous, base, _, _, _, _, _, _, _ => by
    simp [decodeDirectLeafEntries, writeDirectLeafEntries]
  | entry :: entries, ordinal, offset, previous, base, hbase, hlen, hvalues, hordered, hprevious,
      hdirect, hbytes => by
    have hvalue := hvalues entry List.mem_cons_self
    have hat : DirectAt commitId firstPacked entry ordinal := hdirect 0 entry rfl
    have hordinal := hat.2.2.1
    have hpacked := hat.2.2.2.1
    have h1 : body.drop offset = writeFrontCoded base entry.key ++
        ((writeVarint (sliceDictionaryRef tailDictionary (entry.value.drop valueStateTailStart)) ++
          (if sliceDictionaryRef tailDictionary (entry.value.drop valueStateTailStart) = 0
            then entry.value.drop valueStateTailStart else [])) ++
        (writeDirectLeafEntries tailDictionary entry.key entries ++ rest)) := by
      rw [hbytes, writeDirectLeafEntries]
      simp only [List.append_assoc]
    have h2 := drop_add_of_drop_eq h1
    have h3 := drop_add_of_drop_eq h2
    have hend := add_length_le_of_drop_eq h2 (by simp [writeVarint_ne_nil])
    have hkeyLen := length_le_writeFrontCoded base entry.key
    have hkey := readLeafKey_writeFrontCoded directLeafNode hbase hlen
      (fun p hp => hprevious p hp entry rfl) h1 hfits husize
    have htailRead := readLeafTail_written directLeafNode hvalue.parts.2.2.1 h2 htailLen hfits husize
    have hnext : decodeDirectLeafEntries usizeBits body commitId firstPacked tailDictionary
        entries.length (ordinal + 1) _ (some entry.key) = _ :=
      decodeDirectLeafEntries_writeDirectLeafEntries htailLen hfits husize entries
        (rfl : (some entry.key).getD [] = entry.key) (by rw [Option.getD_some]; omega)
        (fun e he => hvalues e (List.mem_cons_of_mem _ he)) (List.isChain_cons.mp hordered).2
        (fun p hp e he => by
          rw [Option.mem_def, Option.some_inj] at hp
          exact hp ▸ (List.isChain_cons.mp hordered).1 e he)
        (fun j e he => by
          rw [Nat.add_right_comm]
          exact hdirect (j + 1) e he) h3
    simp only [List.length_cons, decodeDirectLeafEntries, hkey, htailRead, bind, Except.bind,
      not_le.mpr hordinal, not_le.mpr hpacked, if_false, hnext, pure, Except.pure,
      hat.value_eq hvalue]
    simp only [Option.getD_some, writeDirectLeafEntries, List.length_append, Nat.add_assoc]

/-- A direct leaf body reads back from any dictionary of writer's tails. -/
theorem decodeDirectLeafV1_writeDirectLeafEntries {entries : List EncodedLeafEntry}
    {commitId : List UInt8} {firstPacked : ℕ} {tailDictionary : List (List UInt8)}
    {body : List UInt8} (hvalues : ∀ entry ∈ entries, IsValueRef entry.value)
    (hordered : KeysOrdered entries)
    (hsequence : directLeafSequence entries = some (commitId, firstPacked))
    (htails : ∀ tail ∈ tailDictionary, IsValueTail tail)
    (hbody : body = writeVarint entries.length ++ commitId ++ beBytes 4 firstPacked ++
      writeVarint tailDictionary.length ++ tailDictionary.flatten ++
      writeDirectLeafEntries tailDictionary [] entries)
    (hfits : body.length < 2 ^ usizeBits) (husize : usizeBits ≤ 64) :
    decodeDirectLeafV1 usizeBits body = .ok ⟨entries⟩ := by
  obtain ⟨hne, hdirect⟩ := directLeafSequence_spec hsequence
  obtain ⟨first, rest, hfirst⟩ := List.exists_cons_of_ne_nil hne
  have hat : DirectAt commitId firstPacked first 0 := hdirect 0 first (by rw [hfirst]; rfl)
  have hcommitId : commitId.length = 16 := by
    rw [← hat.1]
    exact (hvalues first (hfirst ▸ List.mem_cons_self)).parts.2.1
  have hfirstPacked : firstPacked < 256 ^ 4 := by
    have := hat.2.2.2.1
    omega
  have htailBytes : tailDictionary.length ≤ tailDictionary.flatten.length :=
    length_le_length_flatten fun tail htail => by
      obtain ⟨deleted, createdAt, updatedAt, rfl⟩ := htails tail htail
      exact writeValueTail_ne_nil _ _ _
  have hentryBytes := length_le_writeDirectLeafEntries tailDictionary [] entries
  have hlength : body.length = (writeVarint entries.length).length + commitId.length +
      (beBytes 4 firstPacked).length + (writeVarint tailDictionary.length).length +
      tailDictionary.flatten.length + (writeDirectLeafEntries tailDictionary [] entries).length := by
    rw [hbody]
    simp only [List.length_append]
  have h1 : body.drop 0 = writeVarint entries.length ++ (commitId ++ (beBytes 4 firstPacked ++
      (writeVarint tailDictionary.length ++ (tailDictionary.flatten ++
        (writeDirectLeafEntries tailDictionary [] entries ++ []))))) := by
    rw [hbody, List.drop_zero, List.append_nil]
    simp only [List.append_assoc]
  have h2 := drop_add_of_drop_eq h1
  have h3 := drop_add_of_drop_eq h2
  have h4 := drop_add_of_drop_eq h3
  have h5 := drop_add_of_drop_eq h4
  have h6 := drop_add_of_drop_eq h5
  rw [hcommitId] at h3 h4 h5 h6
  rw [length_beBytes] at h4 h5 h6
  obtain ⟨hentriesUsize, hentries64⟩ :=
    lt_of_le_length (show entries.length ≤ body.length by omega) hfits husize
  obtain ⟨htailUsize, htail64⟩ :=
    lt_of_le_length (show tailDictionary.length ≤ body.length by omega) hfits husize
  have hcount : entries.length ≠ 0 := fun hzero => hne (List.length_eq_zero_iff.mp hzero)
  have hcommitRead := slice_of_drop_eq directLeafNode hcommitId h2 (by omega) hfits
  have hpackedRead := slice_of_drop_eq directLeafNode (length_beBytes 4 firstPacked) h3
    (by omega) hfits
  have htailsRead := readValueTails_flatten directLeafNode hfits tailDictionary htails h5
  have hentriesRead := decodeDirectLeafEntries_writeDirectLeafEntries (by omega) hfits husize
    entries (rfl : (none : Option (List UInt8)).getD [] = []) (Nat.zero_le _) hvalues hordered
    (fun p hp => by cases hp) (fun j e he => by rw [Nat.zero_add]; exact hdirect j e he) h6
  simp only [zero_add] at h2 h4 hcommitRead hpackedRead htailsRead hentriesRead
  have hend : (writeVarint entries.length).length + 16 + 4 +
      (writeVarint tailDictionary.length).length + tailDictionary.flatten.length +
      (writeDirectLeafEntries tailDictionary (none.getD []) entries).length = body.length := by
    rw [hlength, hcommitId, length_beBytes]
    rfl
  simp only [decodeDirectLeafV1, readVarint_of_drop_eq hentries64 h1,
    readVarint_of_drop_eq htail64 h4, zero_add, bind, Except.bind, usizeFrom_of_lt hentriesUsize,
    usizeFrom_of_lt htailUsize, hcount, if_false, hcommitRead, hpackedRead,
    fromBeBytes_beBytes_of_lt hfirstPacked, htailsRead, hentriesRead, hend, ne_eq,
    not_true_eq_false, pure, Except.pure]

end Direct

/-! ## Leaves -/

section Leaf

variable {usizeBits : ℕ}

/-- A stored value has the v3 value layout's length: two ids and a tail of one to 17 bytes. -/
theorem IsValueRef.length_mem {bytes : List UInt8} (h : IsValueRef bytes) :
    valueMinBytes ≤ bytes.length ∧ bytes.length ≤ valueMaxBytes := by
  obtain ⟨value, rfl⟩ := h
  have hcreated := minimalTimestampWidth_le value.createdAt.toNat_lt
  have hupdated := minimalTimestampWidth_le value.updatedAt.toNat_lt
  rw [length_encodeValueRef, length_writeValueTail _ value.createdAt.toNat_lt
    value.updatedAt.toNat_lt]
  unfold valueMinBytes valueMaxBytes
  split <;> omega

/-- Leaf entries of stored values, from keys and values. -/
def entriesOfRows (rows : List (List UInt8 × TrackedStateIndexValue)) : List EncodedLeafEntry :=
  rows.map fun row => ⟨row.1, encodeValueRef row.2⟩

theorem isValueRef_of_mem_entriesOfRows {rows : List (List UInt8 × TrackedStateIndexValue)} :
    ∀ entry ∈ entriesOfRows rows, IsValueRef entry.value := by
  intro entry hentry
  obtain ⟨row, -, rfl⟩ := List.mem_map.mp hentry
  exact ⟨row.2, rfl⟩

/-- Three rows of two commits: two share the commit id and the state tail, so the v4 layout
puts each in a dictionary. -/
def sampleLeafRows : List (List UInt8 × TrackedStateIndexValue) :=
  [([1, 2], ⟨Vector.replicate 16 1, Vector.replicate 16 7, false, 5, 5⟩),
    ([1, 3], ⟨Vector.replicate 16 2, Vector.replicate 16 7, false, 5, 5⟩),
    ([2], ⟨Vector.replicate 16 9, Vector.replicate 16 8, true, 300, 70000⟩)]

/-- A change id of the direct layout: the commit id's first twelve bytes and a packed ordinal. -/
def sampleChangeId (ordinal : ℕ) : Vector UInt8 16 :=
  ⟨(List.replicate 12 3 ++ beBytes 4 (5 + ordinal)).toArray, by
    rw [List.size_toArray, List.length_append, List.length_replicate, length_beBytes]⟩

/-- Three rows of one commit with consecutive change ids, which take the direct layout. -/
def sampleDirectRows : List (List UInt8 × TrackedStateIndexValue) :=
  [([4], ⟨sampleChangeId 0, Vector.replicate 16 3, false, 9, 9⟩),
    ([4, 0], ⟨sampleChangeId 1, Vector.replicate 16 3, false, 9, 12⟩),
    ([5], ⟨sampleChangeId 2, Vector.replicate 16 3, false, 9, 9⟩)]

/-- The leaf encoder panics only on a value of the wrong length. -/
theorem encodeLeafNode_isSome_of_lengths {entries : List EncodedLeafEntry}
    (hlengths : ∀ entry ∈ entries,
      valueMinBytes ≤ entry.value.length ∧ entry.value.length ≤ valueMaxBytes) :
    (encodeLeafNode entries).isSome := by
  unfold encodeLeafNode
  rw [if_pos (List.all_eq_true.mpr fun entry hentry => decide_eq_true (hlengths entry hentry))]
  rfl

/-- The leaf encoder's assertion on the value layout holds for stored values, so it encodes
every leaf of stored values. -/
theorem encodeLeafNode_isSome {entries : List EncodedLeafEntry}
    (hvalues : ∀ entry ∈ entries, IsValueRef entry.value) : (encodeLeafNode entries).isSome :=
  encodeLeafNode_isSome_of_lengths fun entry hentry => (hvalues entry hentry).length_mem

/-- The bytes the leaf encoder writes read back, in whichever layout it chose, on any target
whose `usize` holds the node's length. -/
theorem decodeNodeRef_of_encodeLeafNode {entries : List EncodedLeafEntry} {bytes : List UInt8}
    (hwf : WellFormedEntries entries) (hbytes : encodeLeafNode entries = some bytes)
    (hfits : bytes.length < 2 ^ usizeBits) (husize : usizeBits ≤ 64) :
    decodeNodeRef usizeBits bytes = .ok (.leaf ⟨entries⟩) := by
  obtain ⟨hvalues, hordered⟩ := hwf
  unfold encodeLeafNode at hbytes
  rw [if_pos (List.all_eq_true.mpr fun entry hentry => decide_eq_true (hvalues entry hentry).length_mem),
    Option.some_inj] at hbytes
  rcases hsequence : directLeafSequence entries with _ | ⟨commitId, firstPacked⟩
  · -- no direct sequence: the v4 layout with its two dictionaries
    rw [hsequence] at hbytes
    subst hbytes
    rw [List.length_cons] at hfits
    rw [decodeNodeRef, if_pos rfl, decodeLeafV4_writeLeafEntries hvalues hordered
      (fun _ hx => length_of_mem_repeatedDictionary hvalues hx)
      (fun _ ht => isValueTail_of_mem_repeatedTailDictionary hvalues ht) rfl (by omega) husize]
    rfl
  · -- a direct sequence: the direct layout with the tail dictionary
    rw [hsequence] at hbytes
    simp only at hbytes
    subst hbytes
    rw [encodeDirectLeafV1, List.length_cons] at hfits
    rw [encodeDirectLeafV1, decodeNodeRef, if_neg (by decide), if_neg (by decide), if_pos rfl,
      decodeDirectLeafV1_writeDirectLeafEntries hvalues hordered hsequence
        (fun _ ht => isValueTail_of_mem_repeatedTailDictionary hvalues ht) rfl (by omega) husize]
    rfl

/-- A leaf as the tree builds it is encoded, and reads back from its encoding in whichever
layout the encoder chose, on any target whose `usize` holds the node's length. -/
theorem decodeNodeRef_encodeLeafNode {entries : List EncodedLeafEntry} (hwf : WellFormedEntries entries)
    (husize : usizeBits ≤ 64) :
    ∃ bytes, encodeLeafNode entries = some bytes ∧
      (bytes.length < 2 ^ usizeBits → decodeNodeRef usizeBits bytes = .ok (.leaf ⟨entries⟩)) := by
  obtain ⟨bytes, hbytes⟩ := Option.isSome_iff_exists.mp (encodeLeafNode_isSome hwf.1)
  exact ⟨bytes, hbytes, fun hfits => decodeNodeRef_of_encodeLeafNode hwf hbytes hfits husize⟩

theorem decodeNodeRef_encodeLeafNode_sample :
    WellFormedEntries (entriesOfRows sampleLeafRows) ∧
      (∃ bytes, encodeLeafNode (entriesOfRows sampleLeafRows) = some bytes ∧
        (bytes.length < 2 ^ 32 →
          decodeNodeRef 32 bytes = .ok (.leaf ⟨entriesOfRows sampleLeafRows⟩))) ∧
      WellFormedEntries (entriesOfRows sampleDirectRows) ∧
      ∃ bytes, encodeLeafNode (entriesOfRows sampleDirectRows) = some bytes ∧
        (bytes.length < 2 ^ 32 →
          decodeNodeRef 32 bytes = .ok (.leaf ⟨entriesOfRows sampleDirectRows⟩)) :=
  ⟨⟨isValueRef_of_mem_entriesOfRows, by decide⟩,
    decodeNodeRef_encodeLeafNode ⟨isValueRef_of_mem_entriesOfRows, by decide⟩ (by decide),
    ⟨isValueRef_of_mem_entriesOfRows, by decide⟩,
    decodeNodeRef_encodeLeafNode ⟨isValueRef_of_mem_entriesOfRows, by decide⟩ (by decide)⟩

end Leaf

/-! ## What the leaf decoders accept -/

section Accepted

variable {usizeBits : ℕ}

/-- The direct entry loop accepts only entries as the tree builds them, for a 16-byte commit id
and a dictionary of writer's tails: each change id is the commit id's first twelve bytes and a
packed ordinal. -/
theorem decodeDirectLeafEntries_wellFormed {body commitId : List UInt8} {firstPacked : ℕ}
    {tailDictionary : List (List UInt8)} (hcommitId : commitId.length = 16)
    (htails : ∀ tail ∈ tailDictionary, IsValueTail tail) :
    ∀ {count ordinal offset offset' : ℕ} {previous : Option (List UInt8)}
      {entries : List EncodedLeafEntry},
      decodeDirectLeafEntries usizeBits body commitId firstPacked tailDictionary count ordinal offset
          previous = .ok (entries, offset') →
      entries.length = count ∧ (∀ entry ∈ entries, IsValueRef entry.value) ∧ KeysOrdered entries ∧
        ∀ p ∈ previous, ∀ entry ∈ entries.head?, compare p entry.key = .lt
  | 0, _, _, _, _, _, h => by
    cases h
    simp [KeysOrdered]
  | count + 1, ordinal, offset, offset', previous, entries, h => by
    unfold decodeDirectLeafEntries at h
    obtain ⟨⟨key, o1⟩, hkey, h⟩ := bind_eq_ok.mp h
    obtain ⟨⟨tail, o2⟩, htail, h⟩ := bind_eq_ok.mp h
    simp only at h
    obtain ⟨-, h⟩ := ite_throw_eq_ok.mp h
    obtain ⟨-, h⟩ := ite_throw_eq_ok.mp h
    obtain ⟨⟨rest, o3⟩, hrest, h⟩ := bind_eq_ok.mp h
    simp only [pure, Except.pure, Except.ok.injEq, Prod.mk.injEq] at h
    obtain ⟨rfl, -⟩ := h
    obtain ⟨hlen, hvalues, hordered, hhead⟩ :=
      decodeDirectLeafEntries_wellFormed hcommitId htails hrest
    refine ⟨by rw [List.length_cons, hlen], ?_, List.isChain_cons.mpr ⟨hhead key rfl, hordered⟩,
      ?_⟩
    · intro entry hentry
      rcases List.mem_cons.mp hentry with rfl | hentry
      · have hchange : (commitId.take 12 ++ beBytes 4 (firstPacked + ordinal)).length = 16 := by
          rw [List.length_append, List.length_take, hcommitId, length_beBytes]
          rfl
        exact isValueRef_of_parts hchange hcommitId (readLeafTail_isValueTail htails htail)
      · exact hvalues entry hentry
    · intro p hp entry hentry
      rw [List.head?_cons, Option.mem_def, Option.some_inj] at hentry
      subst hentry
      exact readLeafKey_ordered hkey p hp

/-- The direct decoder accepts only leaves as the tree builds them. -/
theorem decodeDirectLeafV1_wellFormed {body : List UInt8} {node : DecodedLeafNodeRef}
    (h : decodeDirectLeafV1 usizeBits body = .ok node) : WellFormedEntries node.entries := by
  unfold decodeDirectLeafV1 at h
  obtain ⟨⟨entryCount, o1⟩, -, h⟩ := bind_eq_ok.mp h
  obtain ⟨entryCount', -, h⟩ := bind_eq_ok.mp h
  obtain ⟨-, h⟩ := ite_throw_eq_ok.mp h
  obtain ⟨⟨commitId, o2⟩, -, h⟩ := bind_eq_ok.mp h
  obtain ⟨⟨packed, o3⟩, -, h⟩ := bind_eq_ok.mp h
  obtain ⟨⟨tailDictLen, o4⟩, -, h⟩ := bind_eq_ok.mp h
  obtain ⟨tailDictLen', -, h⟩ := bind_eq_ok.mp h
  obtain ⟨⟨tailDictionary, o5⟩, htails, h⟩ := bind_eq_ok.mp h
  obtain ⟨⟨entries, o6⟩, hentries, h⟩ := bind_eq_ok.mp h
  simp only at h
  obtain ⟨-, h⟩ := ite_throw_eq_ok.mp h
  simp only [pure, Except.pure, Except.ok.injEq] at h
  subst h
  obtain ⟨-, hvalues, hordered, -⟩ :=
    decodeDirectLeafEntries_wellFormed commitId.2 (readValueTails_isValueTail htails) hentries
  exact ⟨hvalues, hordered⟩

/-- Whatever the node decoder accepts as a leaf, in either layout, is one as the tree builds
it. -/
theorem decodeNodeRef_leaf_wellFormed {bytes : List UInt8} {node : DecodedLeafNodeRef}
    (h : decodeNodeRef usizeBits bytes = .ok (.leaf node)) : WellFormedEntries node.entries := by
  unfold decodeNodeRef at h
  rcases bytes with _ | ⟨kind, body⟩
  · cases h
  simp only at h
  by_cases hleaf : kind = nodeKindLeafV4
  · rw [if_pos hleaf] at h
    obtain ⟨node', hnode, h⟩ := map_eq_ok.mp h
    cases h
    exact decodeLeafV4_wellFormed hnode
  rw [if_neg hleaf] at h
  by_cases hinternal : kind = nodeKindInternalV4
  · rw [if_pos hinternal] at h
    obtain ⟨_, -, h⟩ := map_eq_ok.mp h
    cases h
  rw [if_neg hinternal] at h
  by_cases hdirect : kind = nodeKindDirectLeafV1
  · rw [if_pos hdirect] at h
    obtain ⟨node', hnode, h⟩ := map_eq_ok.mp h
    cases h
    exact decodeDirectLeafV1_wellFormed hnode
  rw [if_neg hdirect] at h
  cases h

theorem decodeNodeRef_leaf_wellFormed_sample :
    decodeNodeRef 32 ((encodeLeafNode (entriesOfRows sampleLeafRows)).getD []) =
        .ok (.leaf ⟨entriesOfRows sampleLeafRows⟩) ∧
      WellFormedEntries (entriesOfRows sampleLeafRows) :=
  have h : decodeNodeRef 32 ((encodeLeafNode (entriesOfRows sampleLeafRows)).getD []) =
      .ok (.leaf ⟨entriesOfRows sampleLeafRows⟩) := by decide +kernel
  ⟨h, decodeNodeRef_leaf_wellFormed h⟩

end Accepted

end Lix.NodeCodec
