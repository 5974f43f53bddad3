import Lix.NodeCodecTail

/-! The readers the node decoders share, read against what the encoders write: the `usize`
conversion, slices, varints, front-coded keys, and state tails taken literally or from a
dictionary. Each reader has a round-trip lemma, for bytes that hold what the writer wrote
followed by anything, and a lemma saying what an accepted read guarantees.

Every length the encoders write is at most the length of the node, so a node shorter than
`2 ^ usizeBits` keeps each of them in `usize`; with `usizeBits ≤ 64` they are also `u64`
varints. -/
namespace Lix.NodeCodec
open ExceptSpec FrontCoding ListWindow
open Varint hiding readVarint

section Readers

variable {usizeBits : ℕ}

theorem usizeFrom_of_lt {node what : String} {value : ℕ} (h : value < 2 ^ usizeBits) :
    usizeFrom usizeBits node what value = .ok value :=
  if_pos h

/-- A length no longer than a node shorter than `2 ^ usizeBits` fits `usize` and `u64`. -/
theorem lt_of_le_length {body : List UInt8} {value : ℕ} (hle : value ≤ body.length)
    (hfits : body.length < 2 ^ usizeBits) (husize : usizeBits ≤ 64) :
    value < 2 ^ usizeBits ∧ value < 2 ^ 64 :=
  ⟨by omega, lt_of_lt_of_le (by omega) (Nat.pow_le_pow_right (by norm_num) husize)⟩

theorem slice_of_drop_eq (node : String) {body segment rest : List UInt8} {offset len : ℕ}
    (hlen : segment.length = len) (hbytes : body.drop offset = segment ++ rest)
    (hoffset : offset ≤ body.length) (hfits : body.length < 2 ^ usizeBits) :
    slice usizeBits node body offset len = .ok (⟨segment, hlen⟩, offset + len) := by
  subst hlen
  have hend := congrArg List.length hbytes
  rw [List.length_drop, List.length_append] at hend
  unfold slice
  rw [if_neg (by omega), dif_pos (by omega)]
  simp only [hbytes, List.take_left]

theorem readVarint_of_drop_eq {bytes rest : List UInt8} {offset value : ℕ} {context : String}
    (hvalue : value < 2 ^ 64) (hbytes : bytes.drop offset = writeVarint value ++ rest) :
    readVarint bytes offset context = .ok (value, offset + (writeVarint value).length) :=
  Varint.readVarint_writeVarint hvalue hbytes

theorem readVarint_bounds {bytes : List UInt8} {offset value offset' : ℕ} {context : String}
    (h : readVarint bytes offset context = .ok (value, offset')) :
    value < 2 ^ 64 ∧ offset < offset' ∧ offset' ≤ bytes.length :=
  Varint.readVarint_spec h

end Readers

/-! ## Front-coded keys -/

section Keys

variable {usizeBits : ℕ}

theorem getD_map_length {α : Type} (base : Option (List α)) :
    (base.map List.length).getD 0 = (base.getD []).length := by
  cases base <;> rfl

/-- The three reads of a front-coded key written after a base no longer than the offset: the
shared length, the suffix length and the suffix. -/
theorem frontCoded_reads (node : String) {body rest base key : List UInt8} {offset : ℕ}
    (hlen : base.length ≤ offset) (hbytes : body.drop offset = writeFrontCoded base key ++ rest)
    (hfits : body.length < 2 ^ usizeBits) (husize : usizeBits ≤ 64) :
    readVarint body offset node =
        .ok (sharedPrefixLen base key, offset + (writeVarint (sharedPrefixLen base key)).length) ∧
      readVarint body (offset + (writeVarint (sharedPrefixLen base key)).length) node =
        .ok ((key.drop (sharedPrefixLen base key)).length,
          offset + (writeVarint (sharedPrefixLen base key)).length +
            (writeVarint (key.drop (sharedPrefixLen base key)).length).length) ∧
      slice usizeBits node body
          (offset + (writeVarint (sharedPrefixLen base key)).length +
            (writeVarint (key.drop (sharedPrefixLen base key)).length).length)
          (key.drop (sharedPrefixLen base key)).length =
        .ok (⟨key.drop (sharedPrefixLen base key), rfl⟩, offset + (writeFrontCoded base key).length) ∧
      sharedPrefixLen base key < 2 ^ usizeBits ∧
      (key.drop (sharedPrefixLen base key)).length < 2 ^ usizeBits := by
  have hend := add_length_le_of_drop_eq hbytes (writeFrontCoded_ne_nil base key)
  rw [writeFrontCoded_eq] at hbytes hend ⊢
  simp only [List.length_append] at hend
  have hshared := sharedPrefixLen_le_left base key
  obtain ⟨hsharedUsize, hshared64⟩ :=
    lt_of_le_length (show sharedPrefixLen base key ≤ body.length by omega) hfits husize
  obtain ⟨hsuffixUsize, hsuffix64⟩ :=
    lt_of_le_length (show (key.drop (sharedPrefixLen base key)).length ≤ body.length by omega)
      hfits husize
  have h1 : body.drop offset = writeVarint (sharedPrefixLen base key) ++
      (writeVarint (key.drop (sharedPrefixLen base key)).length ++
        (key.drop (sharedPrefixLen base key) ++ rest)) := by
    rw [hbytes]
    simp only [List.append_assoc]
  have h2 : body.drop (offset + (writeVarint (sharedPrefixLen base key)).length) =
      writeVarint (key.drop (sharedPrefixLen base key)).length ++
        (key.drop (sharedPrefixLen base key) ++ rest) :=
    drop_add_of_drop_eq h1
  have h3 : body.drop (offset + (writeVarint (sharedPrefixLen base key)).length +
      (writeVarint (key.drop (sharedPrefixLen base key)).length).length) =
        key.drop (sharedPrefixLen base key) ++ rest :=
    drop_add_of_drop_eq h2
  refine ⟨readVarint_of_drop_eq hshared64 h1, readVarint_of_drop_eq hsuffix64 h2, ?_, hsharedUsize,
    hsuffixUsize⟩
  rw [slice_of_drop_eq node rfl h3 (by omega) hfits]
  simp only [List.length_append, Nat.add_assoc]

/-- The internal decoder reads a boundary key back from its front coding against the key before
it, `none` standing for the empty base of the first key. -/
theorem frontCodedInto_writeFrontCoded {body rest base key : List UInt8}
    {previous : Option (List UInt8)} {offset : ℕ} (hbase : previous.getD [] = base)
    (hlen : base.length ≤ offset) (hbytes : body.drop offset = writeFrontCoded base key ++ rest)
    (hfits : body.length < 2 ^ usizeBits) (husize : usizeBits ≤ 64) :
    frontCodedInto usizeBits body offset previous =
      .ok (key, offset + (writeFrontCoded base key).length) := by
  obtain ⟨hshared, hsuffix, hslice, hsharedUsize, hsuffixUsize⟩ :=
    frontCoded_reads internalNode hlen hbytes hfits husize
  have hkey : (previous.getD []).take (sharedPrefixLen base key) ++
      key.drop (sharedPrefixLen base key) = key := by
    rw [hbase]
    exact take_append_drop_sharedPrefixLen base key
  have hwithin : ¬(previous.map List.length).getD 0 < sharedPrefixLen base key := by
    rw [getD_map_length, hbase]
    exact not_lt.mpr (sharedPrefixLen_le_left base key)
  simp only [frontCodedInto, hshared, hsuffix, hslice, usizeFrom_of_lt hsharedUsize,
    usizeFrom_of_lt hsuffixUsize, bind, Except.bind, gt_iff_lt, hwithin, if_false, pure,
    Except.pure, hkey]

/-- The leaf decoders read a key back from its front coding against the key before it, when
the keys are strictly increasing. -/
theorem readLeafKey_writeFrontCoded (node : String) {body rest base key : List UInt8}
    {previous : Option (List UInt8)} {offset : ℕ} (hbase : previous.getD [] = base)
    (hlen : base.length ≤ offset) (hordered : ∀ p ∈ previous, compare p key = .lt)
    (hbytes : body.drop offset = writeFrontCoded base key ++ rest)
    (hfits : body.length < 2 ^ usizeBits) (husize : usizeBits ≤ 64) :
    readLeafKey usizeBits node body offset previous =
      .ok (key, offset + (writeFrontCoded base key).length) := by
  obtain ⟨hshared, hsuffix, hslice, hsharedUsize, hsuffixUsize⟩ :=
    frontCoded_reads node hlen hbytes hfits husize
  have hkey : (previous.getD []).take (sharedPrefixLen base key) ++
      key.drop (sharedPrefixLen base key) = key := by
    rw [hbase]
    exact take_append_drop_sharedPrefixLen base key
  have hwithin : ¬(previous.map List.length).getD 0 < sharedPrefixLen base key := by
    rw [getD_map_length, hbase]
    exact not_lt.mpr (sharedPrefixLen_le_left base key)
  have hnotUnordered : (previous.any fun p => decide (compare p key ≠ .lt)) = false := by
    cases previous with
    | none => rfl
    | some p => simpa using hordered p rfl
  simp only [readLeafKey, hshared, hsuffix, hslice, usizeFrom_of_lt hsharedUsize,
    usizeFrom_of_lt hsuffixUsize, bind, Except.bind, gt_iff_lt, hwithin, if_false, pure,
    Except.pure, hkey, hnotUnordered, Bool.false_eq_true]

/-- A key the leaf decoders accept comes strictly after the key before it. -/
theorem readLeafKey_ordered {node : String} {body key : List UInt8} {previous : Option (List UInt8)}
    {offset offset' : ℕ} (h : readLeafKey usizeBits node body offset previous = .ok (key, offset')) :
    ∀ p ∈ previous, compare p key = .lt := by
  intro p hp
  unfold readLeafKey at h
  obtain ⟨⟨shared, o1⟩, -, h⟩ := bind_eq_ok.mp h
  obtain ⟨shared', -, h⟩ := bind_eq_ok.mp h
  obtain ⟨⟨suffixLen, o2⟩, -, h⟩ := bind_eq_ok.mp h
  obtain ⟨suffixLen', -, h⟩ := bind_eq_ok.mp h
  simp only at h
  obtain ⟨-, h⟩ := ite_throw_eq_ok.mp h
  obtain ⟨⟨suffix, o3⟩, -, h⟩ := bind_eq_ok.mp h
  simp only at h
  obtain ⟨hordered, h⟩ := ite_throw_eq_ok.mp h
  simp only [pure, Except.pure, Except.ok.injEq, Prod.mk.injEq] at h
  obtain ⟨rfl, -⟩ := h
  rw [Option.mem_def] at hp
  subst hp
  simpa using hordered

end Keys

/-! ## Dictionary slots and state tails -/

section Tails

variable {usizeBits : ℕ}

/-- A dictionary slot is zero, or names a slot of the dictionary that holds the value. -/
theorem positionRef_spec (dictionary : List (List UInt8)) (value : List UInt8) :
    positionRef dictionary value = 0 ∨
      (positionRef dictionary value ≠ 0 ∧ positionRef dictionary value ≤ dictionary.length ∧
        dictionary[positionRef dictionary value - 1]? = some value) := by
  unfold positionRef
  rcases hfind : dictionary.findIdx? (· = value) with _ | index
  · exact Or.inl rfl
  · obtain ⟨hlt, hvalue, -⟩ := List.findIdx?_eq_some_iff_getElem.mp hfind
    refine Or.inr ⟨Nat.succ_ne_zero index, hlt, ?_⟩
    rw [Nat.add_sub_cancel, List.getElem?_eq_getElem hlt]
    simpa using hvalue

/-- A leaf decoder reads back a state tail written literally or as its dictionary slot. -/
theorem readLeafTail_written (node : String) {body rest tail : List UInt8}
    {dictionary : List (List UInt8)} {offset : ℕ}
    (htail : IsValueTail tail)
    (hbytes : body.drop offset = writeVarint (sliceDictionaryRef dictionary tail) ++
      (if sliceDictionaryRef dictionary tail = 0 then tail else []) ++ rest)
    (hdictionary : dictionary.length ≤ body.length) (hfits : body.length < 2 ^ usizeBits)
    (husize : usizeBits ≤ 64) :
    readLeafTail usizeBits node body offset dictionary =
      .ok (tail, offset + (writeVarint (sliceDictionaryRef dictionary tail) ++
        if sliceDictionaryRef dictionary tail = 0 then tail else []).length) := by
  unfold sliceDictionaryRef at hbytes ⊢
  rcases positionRef_spec dictionary tail with hzero | ⟨hslot, hle, hget⟩
  · -- slot zero: the tail follows literally
    rw [hzero, if_pos rfl] at hbytes ⊢
    obtain ⟨deleted, createdAt, updatedAt, rfl⟩ := htail
    have h1 : body.drop offset = writeVarint 0 ++
        (writeValueTail deleted createdAt.toNat updatedAt.toNat ++ rest) := by
      rw [hbytes, List.append_assoc]
    have h2 : body.drop (offset + (writeVarint 0).length) =
        writeValueTail deleted createdAt.toNat updatedAt.toNat ++ rest :=
      drop_add_of_drop_eq h1
    simp only [readLeafTail, readVarint_of_drop_eq (by norm_num) h1, bind, Except.bind,
      usizeFrom_of_lt (Nat.two_pow_pos usizeBits), if_true,
      readValueTail_writeValueTail (UInt64.toNat_lt _) (UInt64.toNat_lt _) h2 hfits,
      List.length_append, Nat.add_assoc]
  · -- a slot of the dictionary, which holds the tail
    rw [if_neg hslot, List.append_nil] at hbytes ⊢
    obtain ⟨husizeRef, h64⟩ := lt_of_le_length (le_trans hle hdictionary) hfits husize
    simp only [readLeafTail, readVarint_of_drop_eq h64 hbytes, bind, Except.bind,
      usizeFrom_of_lt husizeRef, if_neg hslot, gt_iff_lt, not_lt.mpr hle, if_false, pure,
      Except.pure, hget, Option.getD_some]

/-- A leaf decoder's state tail, read literally or from a dictionary of writer's tails, is a
writer's tail. -/
theorem readLeafTail_isValueTail {node : String} {body tail : List UInt8}
    {dictionary : List (List UInt8)} {offset offset' : ℕ}
    (hdictionary : ∀ t ∈ dictionary, IsValueTail t)
    (h : readLeafTail usizeBits node body offset dictionary = .ok (tail, offset')) :
    IsValueTail tail := by
  unfold readLeafTail at h
  obtain ⟨⟨ref, o1⟩, -, h⟩ := bind_eq_ok.mp h
  obtain ⟨ref', -, h⟩ := bind_eq_ok.mp h
  by_cases hzero : ref' = 0
  · rw [if_pos hzero] at h
    exact (readValueTail_spec h).1
  rw [if_neg hzero] at h
  by_cases hbound : ref' > dictionary.length
  · rw [if_pos hbound] at h
    cases h
  rw [if_neg hbound] at h
  simp only [pure, Except.pure, Except.ok.injEq, Prod.mk.injEq] at h
  obtain ⟨rfl, -⟩ := h
  rw [List.getElem?_eq_getElem (by omega), Option.getD_some]
  exact hdictionary _ (List.getElem_mem _)

/-- The tail dictionary reads back from its tails written one after the other. -/
theorem readValueTails_flatten (node : String) {body rest : List UInt8}
    (hfits : body.length < 2 ^ usizeBits) :
    ∀ (tails : List (List UInt8)) {offset : ℕ}, (∀ t ∈ tails, IsValueTail t) →
      body.drop offset = tails.flatten ++ rest →
      readValueTails usizeBits body node tails.length offset = .ok (tails, offset + tails.flatten.length)
  | [], offset, _, _ => by simp [readValueTails]
  | tail :: tails, offset, htails, hbytes => by
    obtain ⟨deleted, createdAt, updatedAt, rfl⟩ := htails tail List.mem_cons_self
    have h1 : body.drop offset = writeValueTail deleted createdAt.toNat updatedAt.toNat ++
        (tails.flatten ++ rest) := by
      rw [hbytes, List.flatten_cons, List.append_assoc]
    have h2 : body.drop (offset + (writeValueTail deleted createdAt.toNat updatedAt.toNat).length) =
        tails.flatten ++ rest :=
      drop_add_of_drop_eq h1
    simp only [List.length_cons, readValueTails,
      readValueTail_writeValueTail (UInt64.toNat_lt _) (UInt64.toNat_lt _) h1 hfits, bind,
      Except.bind,
      readValueTails_flatten node hfits tails (fun t ht => htails t (List.mem_cons_of_mem _ ht)) h2,
      pure, Except.pure, List.flatten_cons, List.length_append, Nat.add_assoc]

/-- Every tail of a dictionary the leaf decoders accept is a writer's tail. -/
theorem readValueTails_isValueTail {node : String} {body : List UInt8} :
    ∀ {count offset offset' : ℕ} {tails : List (List UInt8)},
      readValueTails usizeBits body node count offset = .ok (tails, offset') →
      ∀ t ∈ tails, IsValueTail t
  | 0, _, _, _, h => by
    cases h
    simp
  | count + 1, offset, offset', tails, h => by
    obtain ⟨⟨tail, o1⟩, htail, h⟩ := bind_eq_ok.mp h
    obtain ⟨⟨rest, o2⟩, hrest, h⟩ := bind_eq_ok.mp h
    simp only [pure, Except.pure, Except.ok.injEq, Prod.mk.injEq] at h
    obtain ⟨rfl, -⟩ := h
    intro t ht
    rcases List.mem_cons.mp ht with rfl | ht
    · exact (readValueTail_spec htail).1
    · exact readValueTails_isValueTail hrest t ht

end Tails

end Lix.NodeCodec
