import Lix.NodeCodecReaders

/-! The v4 leaf format. A leaf as the tree builds it has strictly increasing keys, and each
value is a stored tracked-state value: a change id, a commit id and a state tail. The v4
encoder moves the commit ids and tails that repeat into two dictionaries and writes each
entry's commit id and tail as a dictionary slot, or literally under slot zero. Every slot the
encoder writes names its own value, whatever the dictionaries hold, so the entries read back
as long as the dictionaries read back; and the dictionaries hold only pieces of the entries'
values, which is what lets them read back. -/
namespace Lix.NodeCodec
open ExceptSpec FrontCoding ListWindow LexCompare
open Varint hiding readVarint

/-! ## Stored values -/

/-- The bytes `encode_value_ref` writes for some value. -/
def IsValueRef (bytes : List UInt8) : Prop :=
  ∃ value, bytes = encodeValueRef value

/-- The keys strictly increase. -/
def KeysOrdered (entries : List EncodedLeafEntry) : Prop :=
  entries.IsChain fun left right => compare left.key right.key = .lt

instance : DecidablePred KeysOrdered :=
  fun _ => inferInstanceAs (Decidable (List.IsChain _ _))

/-- The entries of a leaf as the tree builds it: each value is a stored value, and the keys
strictly increase. -/
def WellFormedEntries (entries : List EncodedLeafEntry) : Prop :=
  (∀ entry ∈ entries, IsValueRef entry.value) ∧ KeysOrdered entries

theorem length_encodeValueRef (value : TrackedStateIndexValue) :
    (encodeValueRef value).length =
      valueStateTailStart +
        (writeValueTail value.deleted value.createdAt.toNat value.updatedAt.toNat).length := by
  simp only [encodeValueRef, List.length_append, Vector.length_toList, valueStateTailStart]

/-- The three parts of a stored value, where the decoders and the encoders cut it. -/
theorem encodeValueRef_parts (value : TrackedStateIndexValue) :
    (encodeValueRef value).take valueChangeIdEnd = value.changeId.toList ∧
      window (encodeValueRef value) valueCommitIdStart valueCommitIdEnd = value.commitId.toList ∧
      (encodeValueRef value).drop valueStateTailStart =
        writeValueTail value.deleted value.createdAt.toNat value.updatedAt.toNat := by
  unfold valueChangeIdEnd valueCommitIdStart valueCommitIdEnd valueStateTailStart
  have hchange : value.changeId.toList.length = 16 := Vector.length_toList
  have hids : (value.changeId.toList ++ value.commitId.toList).length = 32 := by
    rw [List.length_append, hchange, Vector.length_toList]
  refine ⟨?_, ?_, ?_⟩
  · rw [encodeValueRef, List.append_assoc, List.take_left' hchange]
  · rw [encodeValueRef, window, List.take_left' hids, List.drop_left' hchange]
  · rw [encodeValueRef, List.drop_left' hids]

/-- A value is its change id, its commit id and the rest, cut where the codec cuts it. -/
theorem take_append_window_append_drop (bytes : List UInt8) :
    bytes.take valueChangeIdEnd ++ window bytes valueCommitIdStart valueCommitIdEnd ++
      bytes.drop valueStateTailStart = bytes := by
  unfold valueChangeIdEnd valueCommitIdStart valueCommitIdEnd valueStateTailStart
  rw [← take_eq_take_append_window bytes (by decide : 16 ≤ 32)]
  exact List.take_append_drop _ _

/-- A change id, a commit id and a writer's tail make a stored value. -/
theorem isValueRef_of_parts {changeId commitId tail : List UInt8} (hchange : changeId.length = 16)
    (hcommit : commitId.length = 16) (htail : IsValueTail tail) :
    IsValueRef (changeId ++ commitId ++ tail) := by
  obtain ⟨deleted, createdAt, updatedAt, rfl⟩ := htail
  exact ⟨⟨⟨changeId.toArray, by simpa using hchange⟩, ⟨commitId.toArray, by simpa using hcommit⟩,
    deleted, createdAt, updatedAt⟩, by simp [encodeValueRef]⟩

theorem IsValueRef.parts {bytes : List UInt8} (h : IsValueRef bytes) :
    (bytes.take valueChangeIdEnd).length = 16 ∧
      (window bytes valueCommitIdStart valueCommitIdEnd).length = 16 ∧
      IsValueTail (bytes.drop valueStateTailStart) ∧ valueStateTailStart < bytes.length := by
  obtain ⟨value, rfl⟩ := h
  obtain ⟨hchange, hcommit, htail⟩ := encodeValueRef_parts value
  have hlength := length_encodeValueRef value
  have htailPos := List.length_pos_of_ne_nil
    (writeValueTail_ne_nil value.deleted value.createdAt.toNat value.updatedAt.toNat)
  rw [hchange, hcommit, htail]
  exact ⟨Vector.length_toList, Vector.length_toList,
    ⟨value.deleted, value.createdAt, value.updatedAt, rfl⟩, by omega⟩

/-! ## Dictionaries -/

section Dictionaries

variable {β : Type} [DecidableEq β]

theorem mem_bumpCount {value v : β} {count : ℕ} :
    ∀ {counts : List (β × ℕ)}, (v, count) ∈ bumpCount value counts →
      v = value ∨ ∃ count', (v, count') ∈ counts
  | [], h => by
    simp only [bumpCount, List.mem_singleton, Prod.mk.injEq] at h
    exact Or.inl h.1
  | (known, known_count) :: counts, h => by
    unfold bumpCount at h
    by_cases hknown : known = value
    · rw [if_pos hknown] at h
      rcases List.mem_cons.mp h with h | h
      · simp only [Prod.mk.injEq] at h
        exact Or.inr ⟨known_count, h.1 ▸ List.mem_cons_self⟩
      · exact Or.inr ⟨count, List.mem_cons_of_mem _ h⟩
    · rw [if_neg hknown] at h
      rcases List.mem_cons.mp h with h | h
      · exact Or.inr ⟨count, h ▸ List.mem_cons_self⟩
      · rcases mem_bumpCount h with h | ⟨count', h⟩
        · exact Or.inl h
        · exact Or.inr ⟨count', List.mem_cons_of_mem _ h⟩

theorem mem_foldl_bumpCount :
    ∀ (values : List β) {counts : List (β × ℕ)} {v : β} {count : ℕ},
      (v, count) ∈ values.foldl (fun counts value => bumpCount value counts) counts →
      v ∈ values ∨ ∃ count', (v, count') ∈ counts
  | [], _, _, _, h => Or.inr ⟨_, h⟩
  | value :: values, counts, v, count, h => by
    rw [List.foldl_cons] at h
    rcases mem_foldl_bumpCount values h with h | ⟨count', h⟩
    · exact Or.inl (List.mem_cons_of_mem _ h)
    · rcases mem_bumpCount h with rfl | h
      · exact Or.inl List.mem_cons_self
      · exact Or.inr h

/-- A dictionary holds only values it was built from. -/
theorem mem_repeatedValues {values : List β} {v : β} (h : v ∈ repeatedValues values) :
    v ∈ values := by
  unfold repeatedValues at h
  obtain ⟨⟨v', count⟩, hmem, hsome⟩ := List.mem_filterMap.mp h
  have hv : v' = v := by
    simp only at hsome
    split_ifs at hsome
    exact Option.some_inj.mp hsome
  subst hv
  rcases mem_foldl_bumpCount values hmem with h | ⟨_, h⟩
  · exact h
  · cases h

end Dictionaries

/-- The commit dictionary of stored values holds 16-byte commit ids. -/
theorem length_of_mem_repeatedDictionary {entries : List EncodedLeafEntry} {commitId : List UInt8}
    (hvalues : ∀ entry ∈ entries, IsValueRef entry.value)
    (h : commitId ∈ repeatedDictionary 16 entries valueCommitIdStart) : commitId.length = 16 := by
  obtain ⟨entry, hentry, rfl⟩ := List.mem_map.mp (mem_repeatedValues h)
  exact (hvalues entry hentry).parts.2.1

/-- The tail dictionary of stored values holds writer's tails. -/
theorem isValueTail_of_mem_repeatedTailDictionary {entries : List EncodedLeafEntry}
    {tail : List UInt8} (hvalues : ∀ entry ∈ entries, IsValueRef entry.value)
    (h : tail ∈ repeatedTailDictionary entries) : IsValueTail tail := by
  obtain ⟨entry, hentry, rfl⟩ := List.mem_map.mp (mem_repeatedValues h)
  exact (hvalues entry hentry).parts.2.2.1

/-! ## Commit ids -/

section CommitIds

variable {usizeBits : ℕ}

/-- A commit id reads back from its dictionary slot, or literally under slot zero, when the
dictionary's ids lie back to back. -/
theorem readCommitId_written {body rest commitId : List UInt8} {dictionary : List (List UInt8)}
    {offset : ℕ} (hdictionary : ∀ x ∈ dictionary, x.length = 16) (hcommitId : commitId.length = 16)
    (hbytes : body.drop offset = writeVarint (dictionaryRef dictionary commitId) ++
      (if dictionaryRef dictionary commitId = 0 then commitId else []) ++ rest)
    (hlen : dictionary.length ≤ body.length) (hfits : body.length < 2 ^ usizeBits)
    (husize : usizeBits ≤ 64) :
    readCommitId usizeBits body offset dictionary.length dictionary.flatten =
      .ok (commitId, offset + (writeVarint (dictionaryRef dictionary commitId) ++
        if dictionaryRef dictionary commitId = 0 then commitId else []).length) := by
  unfold dictionaryRef at hbytes ⊢
  rcases positionRef_spec dictionary commitId with hzero | ⟨hslot, hle, hget⟩
  · -- slot zero: the id follows literally
    rw [hzero, if_pos rfl] at hbytes ⊢
    have h1 : body.drop offset = writeVarint 0 ++ (commitId ++ rest) := by
      rw [hbytes, List.append_assoc]
    have hend := add_length_le_of_drop_eq h1 (writeVarint_ne_nil 0)
    have hslice := slice_of_drop_eq leafNode
      (show commitId.length = valueCommitIdEnd - valueCommitIdStart from hcommitId)
      (drop_add_of_drop_eq h1) (by omega) hfits
    simp only [readCommitId, readVarint_of_drop_eq (by norm_num) h1, bind, Except.bind,
      usizeFrom_of_lt (Nat.two_pow_pos usizeBits), if_true, hslice, pure, Except.pure,
      List.length_append, hcommitId, Nat.add_assoc]
    rfl
  · -- a slot of the dictionary: its 16 bytes in the flat dictionary
    rw [if_neg hslot, List.append_nil] at hbytes ⊢
    obtain ⟨husizeRef, h64⟩ := lt_of_le_length (le_trans hle hlen) hfits husize
    have hindex : positionRef dictionary commitId - 1 < dictionary.length := by omega
    have hwindow : window dictionary.flatten ((positionRef dictionary commitId - 1) * 16)
        (positionRef dictionary commitId * 16) = commitId := by
      have hslice := window_flatten hdictionary hindex
      rw [List.getElem?_eq_getElem hindex, Option.some_inj] at hget
      have hstop : 16 * (positionRef dictionary commitId - 1) + 16 =
          positionRef dictionary commitId * 16 := by omega
      rw [hget, hstop, Nat.mul_comm 16] at hslice
      exact hslice
    simp only [readCommitId, readVarint_of_drop_eq h64 hbytes, bind, Except.bind,
      usizeFrom_of_lt husizeRef, if_neg hslot, gt_iff_lt, not_lt.mpr hle, if_false, pure,
      Except.pure, hwindow]

/-- A commit id the v4 decoder accepts is 16 bytes, where the dictionary holds whole ids. -/
theorem readCommitId_length {body commitDictionary commitId : List UInt8}
    {offset offset' commitDictLen : ℕ} (hdictionary : commitDictionary.length = commitDictLen * 16)
    (h : readCommitId usizeBits body offset commitDictLen commitDictionary =
      .ok (commitId, offset')) : commitId.length = 16 := by
  unfold readCommitId at h
  obtain ⟨⟨commitRef, o1⟩, -, h⟩ := bind_eq_ok.mp h
  obtain ⟨commitRef', -, h⟩ := bind_eq_ok.mp h
  by_cases hzero : commitRef' = 0
  · rw [if_pos hzero] at h
    obtain ⟨⟨literal, o2⟩, -, h⟩ := bind_eq_ok.mp h
    simp only [pure, Except.pure, Except.ok.injEq, Prod.mk.injEq] at h
    obtain ⟨rfl, -⟩ := h
    exact literal.2
  rw [if_neg hzero] at h
  by_cases hbound : commitRef' > commitDictLen
  · rw [if_pos hbound] at h
    cases h
  rw [if_neg hbound] at h
  simp only [pure, Except.pure, Except.ok.injEq, Prod.mk.injEq] at h
  obtain ⟨rfl, -⟩ := h
  rw [length_window, hdictionary]
  omega

end CommitIds

/-! ## The v4 layout -/

/-- Every entry takes at least one byte, so there are no more entries than bytes. -/
theorem length_le_writeLeafEntries (commitDictionary tailDictionary : List (List UInt8)) :
    ∀ (base : List UInt8) (entries : List EncodedLeafEntry),
      entries.length ≤ (writeLeafEntries commitDictionary tailDictionary base entries).length
  | _, [] => le_refl 0
  | base, entry :: entries => by
    have hrest := length_le_writeLeafEntries commitDictionary tailDictionary entry.key entries
    have hkey := List.length_pos_of_ne_nil (writeFrontCoded_ne_nil base entry.key)
    simp only [writeLeafEntries, List.length_append, List.length_cons]
    omega

section V4

variable {usizeBits : ℕ}

/-- The v4 entry loop reads back what the encoder's entry loop wrote, for any dictionaries of
16-byte commit ids: the encoder's slots name their own values. The invariant is the internal
child loop's, with the key before the next entry in place of the last key. -/
theorem decodeLeafEntries_writeLeafEntries {body rest : List UInt8}
    {commitDictionary tailDictionary : List (List UInt8)}
    (hcommit : ∀ x ∈ commitDictionary, x.length = 16) (hcommitLen : commitDictionary.length ≤ body.length)
    (htailLen : tailDictionary.length ≤ body.length) (hfits : body.length < 2 ^ usizeBits)
    (husize : usizeBits ≤ 64) :
    ∀ (entries : List EncodedLeafEntry) {offset : ℕ} {previous : Option (List UInt8)}
      {base : List UInt8}, previous.getD [] = base → base.length ≤ offset →
      (∀ entry ∈ entries, IsValueRef entry.value) → KeysOrdered entries →
      (∀ p ∈ previous, ∀ entry ∈ entries.head?, compare p entry.key = .lt) →
      body.drop offset = writeLeafEntries commitDictionary tailDictionary base entries ++ rest →
      decodeLeafEntries usizeBits body commitDictionary.length commitDictionary.flatten tailDictionary
          entries.length offset previous =
        .ok (entries, offset + (writeLeafEntries commitDictionary tailDictionary base entries).length)
  | [], offset, previous, base, _, _, _, _, _, _ => by
    simp [decodeLeafEntries, writeLeafEntries]
  | entry :: entries, offset, previous, base, hbase, hlen, hvalues, hordered, hprevious,
      hbytes => by
    obtain ⟨hchange, hcommitId, htail, -⟩ := (hvalues entry List.mem_cons_self).parts
    have h1 : body.drop offset = writeFrontCoded base entry.key ++
        (entry.value.take valueChangeIdEnd ++
          ((writeVarint (dictionaryRef commitDictionary
              (window entry.value valueCommitIdStart valueCommitIdEnd)) ++
            (if dictionaryRef commitDictionary
                (window entry.value valueCommitIdStart valueCommitIdEnd) = 0
              then window entry.value valueCommitIdStart valueCommitIdEnd else [])) ++
          ((writeVarint (sliceDictionaryRef tailDictionary (entry.value.drop valueStateTailStart)) ++
            (if sliceDictionaryRef tailDictionary (entry.value.drop valueStateTailStart) = 0
              then entry.value.drop valueStateTailStart else [])) ++
          (writeLeafEntries commitDictionary tailDictionary entry.key entries ++ rest)))) := by
      rw [hbytes, writeLeafEntries]
      simp only [List.append_assoc]
    have hchange' : (entry.value.take valueChangeIdEnd).length = valueChangeIdEnd := hchange
    have h2 := drop_add_of_drop_eq h1
    have h3 := drop_add_of_drop_eq h2
    have h4 := drop_add_of_drop_eq h3
    have h5 := drop_add_of_drop_eq h4
    rw [hchange'] at h3 h4 h5
    have hend := add_length_le_of_drop_eq h3 (by simp [writeVarint_ne_nil])
    have hkeyLen := length_le_writeFrontCoded base entry.key
    have hkey := readLeafKey_writeFrontCoded leafNode hbase hlen (fun p hp => hprevious p hp entry rfl) h1
      hfits husize
    have hslice := slice_of_drop_eq leafNode hchange' h2 (by omega) hfits
    have hcommitRead := readCommitId_written hcommit hcommitId h3 hcommitLen hfits husize
    have htailRead := readLeafTail_written leafNode htail h4 htailLen hfits husize
    have hnext := decodeLeafEntries_writeLeafEntries hcommit hcommitLen htailLen hfits husize entries
      (rfl : (some entry.key).getD [] = entry.key) (by rw [Option.getD_some]; omega)
      (fun e he => hvalues e (List.mem_cons_of_mem _ he)) (List.isChain_cons.mp hordered).2
      (fun p hp e he => by
        rw [Option.mem_def, Option.some_inj] at hp
        exact hp ▸ (List.isChain_cons.mp hordered).1 e he) h5
    simp only [List.length_cons, decodeLeafEntries, hkey, hslice, hcommitRead, htailRead, hnext,
      bind, Except.bind, pure, Except.pure, take_append_window_append_drop]
    simp only [Option.getD_some, writeLeafEntries, List.length_append, hchange', Nat.add_assoc]

/-- A v4 leaf body reads back from any dictionaries of 16-byte commit ids and writer's tails. -/
theorem decodeLeafV4_writeLeafEntries {entries : List EncodedLeafEntry}
    {commitDictionary tailDictionary : List (List UInt8)} {body : List UInt8}
    (hvalues : ∀ entry ∈ entries, IsValueRef entry.value) (hordered : KeysOrdered entries)
    (hcommit : ∀ x ∈ commitDictionary, x.length = 16)
    (htails : ∀ tail ∈ tailDictionary, IsValueTail tail)
    (hbody : body = writeVarint entries.length ++ writeVarint commitDictionary.length ++
      commitDictionary.flatten ++ writeVarint tailDictionary.length ++ tailDictionary.flatten ++
      writeLeafEntries commitDictionary tailDictionary [] entries)
    (hfits : body.length < 2 ^ usizeBits) (husize : usizeBits ≤ 64) :
    decodeLeafV4 usizeBits body = .ok ⟨entries⟩ := by
  have hcommitBytes : commitDictionary.flatten.length = commitDictionary.length * 16 :=
    length_flatten_of_length hcommit
  have htailBytes : tailDictionary.length ≤ tailDictionary.flatten.length :=
    length_le_length_flatten fun tail htail => by
      obtain ⟨deleted, createdAt, updatedAt, rfl⟩ := htails tail htail
      exact writeValueTail_ne_nil _ _ _
  have hentryBytes := length_le_writeLeafEntries commitDictionary tailDictionary [] entries
  have hlength : body.length = (writeVarint entries.length).length +
      (writeVarint commitDictionary.length).length + commitDictionary.flatten.length +
      (writeVarint tailDictionary.length).length + tailDictionary.flatten.length +
      (writeLeafEntries commitDictionary tailDictionary [] entries).length := by
    rw [hbody]
    simp only [List.length_append]
  have h1 : body.drop 0 = writeVarint entries.length ++ (writeVarint commitDictionary.length ++
      (commitDictionary.flatten ++ (writeVarint tailDictionary.length ++ (tailDictionary.flatten ++
        (writeLeafEntries commitDictionary tailDictionary [] entries ++ []))))) := by
    rw [hbody, List.drop_zero, List.append_nil]
    simp only [List.append_assoc]
  have h2 := drop_add_of_drop_eq h1
  have h3 := drop_add_of_drop_eq h2
  have h4 := drop_add_of_drop_eq h3
  have h5 := drop_add_of_drop_eq h4
  have h6 := drop_add_of_drop_eq h5
  rw [hcommitBytes] at h4 h5 h6
  obtain ⟨hentriesUsize, hentries64⟩ :=
    lt_of_le_length (show entries.length ≤ body.length by omega) hfits husize
  obtain ⟨hcommitUsize, hcommit64⟩ :=
    lt_of_le_length (show commitDictionary.length ≤ body.length by omega) hfits husize
  obtain ⟨htailUsize, htail64⟩ :=
    lt_of_le_length (show tailDictionary.length ≤ body.length by omega) hfits husize
  have hnotOverflow : ¬2 ^ usizeBits ≤ commitDictionary.length * 16 := by omega
  have hslice := slice_of_drop_eq leafNode hcommitBytes h3 (by omega) hfits
  have htailsRead := readValueTails_flatten leafNode hfits tailDictionary htails h5
  have hentriesRead := decodeLeafEntries_writeLeafEntries hcommit (by omega) (by omega) hfits
    husize entries (rfl : (none : Option (List UInt8)).getD [] = []) (Nat.zero_le _) hvalues
    hordered (fun p hp => by cases hp) h6
  simp only [zero_add] at h2 h4 hslice htailsRead hentriesRead
  have hend : (writeVarint entries.length).length + (writeVarint commitDictionary.length).length +
      commitDictionary.length * 16 + (writeVarint tailDictionary.length).length +
      tailDictionary.flatten.length +
      (writeLeafEntries commitDictionary tailDictionary (none.getD []) entries).length =
        body.length := by
    rw [hlength, hcommitBytes]
    rfl
  simp only [decodeLeafV4, readVarint_of_drop_eq hentries64 h1, readVarint_of_drop_eq hcommit64 h2,
    readVarint_of_drop_eq htail64 h4, zero_add, bind, Except.bind, usizeFrom_of_lt hentriesUsize,
    usizeFrom_of_lt hcommitUsize, usizeFrom_of_lt htailUsize, hnotOverflow, if_false, hslice,
    htailsRead, hentriesRead, hend, ne_eq, not_true_eq_false, pure, Except.pure]

end V4

/-! ## What the v4 decoder accepts -/

section AcceptedV4

variable {usizeBits : ℕ}

/-- The v4 entry loop accepts only entries as the tree builds them, when its dictionaries hold
whole commit ids and writer's tails: each key is checked against the one before, and each
value is rebuilt from a 16-byte change id, a 16-byte commit id and a tail. -/
theorem decodeLeafEntries_wellFormed {body commitDictionary : List UInt8}
    {tailDictionary : List (List UInt8)} {commitDictLen : ℕ}
    (hcommit : commitDictionary.length = commitDictLen * 16)
    (htails : ∀ tail ∈ tailDictionary, IsValueTail tail) :
    ∀ {count offset offset' : ℕ} {previous : Option (List UInt8)} {entries : List EncodedLeafEntry},
      decodeLeafEntries usizeBits body commitDictLen commitDictionary tailDictionary count offset
          previous = .ok (entries, offset') →
      entries.length = count ∧ (∀ entry ∈ entries, IsValueRef entry.value) ∧ KeysOrdered entries ∧
        ∀ p ∈ previous, ∀ entry ∈ entries.head?, compare p entry.key = .lt
  | 0, _, _, _, _, h => by
    cases h
    simp [KeysOrdered]
  | count + 1, offset, offset', previous, entries, h => by
    unfold decodeLeafEntries at h
    obtain ⟨⟨key, o1⟩, hkey, h⟩ := bind_eq_ok.mp h
    obtain ⟨⟨changeId, o2⟩, -, h⟩ := bind_eq_ok.mp h
    obtain ⟨⟨commitId, o3⟩, hcommitId, h⟩ := bind_eq_ok.mp h
    obtain ⟨⟨tail, o4⟩, htail, h⟩ := bind_eq_ok.mp h
    obtain ⟨⟨rest, o5⟩, hrest, h⟩ := bind_eq_ok.mp h
    simp only [pure, Except.pure, Except.ok.injEq, Prod.mk.injEq] at h
    obtain ⟨rfl, -⟩ := h
    obtain ⟨hlen, hvalues, hordered, hhead⟩ := decodeLeafEntries_wellFormed hcommit htails hrest
    refine ⟨by rw [List.length_cons, hlen], ?_, List.isChain_cons.mpr ⟨hhead key rfl, hordered⟩,
      ?_⟩
    · intro entry hentry
      rcases List.mem_cons.mp hentry with rfl | hentry
      · exact isValueRef_of_parts changeId.2 (readCommitId_length hcommit hcommitId)
          (readLeafTail_isValueTail htails htail)
      · exact hvalues entry hentry
    · intro p hp entry hentry
      rw [List.head?_cons, Option.mem_def, Option.some_inj] at hentry
      subst hentry
      exact readLeafKey_ordered hkey p hp

/-- The v4 decoder accepts only leaves as the tree builds them. -/
theorem decodeLeafV4_wellFormed {body : List UInt8} {node : DecodedLeafNodeRef}
    (h : decodeLeafV4 usizeBits body = .ok node) : WellFormedEntries node.entries := by
  unfold decodeLeafV4 at h
  obtain ⟨⟨entryCount, o1⟩, -, h⟩ := bind_eq_ok.mp h
  obtain ⟨entryCount', -, h⟩ := bind_eq_ok.mp h
  obtain ⟨⟨commitDictLen, o2⟩, -, h⟩ := bind_eq_ok.mp h
  obtain ⟨commitDictLen', -, h⟩ := bind_eq_ok.mp h
  obtain ⟨-, h⟩ := ite_throw_eq_ok.mp h
  obtain ⟨⟨commitDictionary, o3⟩, -, h⟩ := bind_eq_ok.mp h
  obtain ⟨⟨tailDictLen, o4⟩, -, h⟩ := bind_eq_ok.mp h
  obtain ⟨tailDictLen', -, h⟩ := bind_eq_ok.mp h
  obtain ⟨⟨tailDictionary, o5⟩, htails, h⟩ := bind_eq_ok.mp h
  obtain ⟨⟨entries, o6⟩, hentries, h⟩ := bind_eq_ok.mp h
  simp only at h
  obtain ⟨-, h⟩ := ite_throw_eq_ok.mp h
  simp only [pure, Except.pure, Except.ok.injEq] at h
  subst h
  obtain ⟨-, hvalues, hordered, -⟩ :=
    decodeLeafEntries_wellFormed commitDictionary.2 (readValueTails_isValueTail htails) hentries
  exact ⟨hvalues, hordered⟩

end AcceptedV4

end Lix.NodeCodec
