import Lix.KeyCodec

/-! Every reader of the key format, run on a buffer that holds a writer's bytes at
its offset, returns the written value and the offset just past them, whatever
precedes or follows. The key round trip, prefix-freeness and the exactness of the
schema and schema/file prefixes all follow from these reads. -/
namespace Lix.KeyCodec
open LexCompare ExceptSpec

/-! ## The bytes each writer appends -/

def keyPartBytes (value : List UInt8) (terminator : UInt8) : List UInt8 :=
  value.flatMap escapeByte ++ [keyPartFinal, terminator]

def fileIdBytes : Option String → List UInt8
  | none => [fileIdNone]
  | some fileId => fileIdSome :: keyPartBytes (utf8 fileId) keyPartFinal

def componentBytes (component : RowPkComponent) (terminator : UInt8) : List UInt8 :=
  writeRowPkComponent [] component terminator

def componentsBytes : List RowPkComponent → List UInt8
  | [] => []
  | [component] => componentBytes component keyPartFinal
  | component :: rest@(_ :: _) => componentBytes component keyPartMore ++ componentsBytes rest

theorem writeKeyBytes_eq (out value : List UInt8) (terminator : UInt8) :
    writeKeyBytes out value terminator = out ++ keyPartBytes value terminator := by
  simp [writeKeyBytes, keyPartBytes]

theorem writeFileId_eq (out : List UInt8) (fileId : Option String) :
    writeFileId out fileId = out ++ fileIdBytes fileId := by
  cases fileId <;> simp [writeFileId, fileIdBytes, writeKeyString, writeKeyBytes_eq]

theorem writeRowPkComponent_eq (out : List UInt8) (component : RowPkComponent) (t : UInt8) :
    writeRowPkComponent out component t = out ++ componentBytes component t := by
  cases component <;> simp [writeRowPkComponent, componentBytes, writeKeyBytes_eq]

theorem writeRowPkComponents_eq (out : List UInt8) (components : List RowPkComponent) :
    writeRowPkComponents out components = out ++ componentsBytes components := by
  induction components generalizing out with
  | nil => simp [writeRowPkComponents, componentsBytes]
  | cons component rest ih =>
    cases rest with
    | nil => simp [writeRowPkComponents, componentsBytes, writeRowPkComponent_eq]
    | cons next rest =>
      rw [writeRowPkComponents, componentsBytes, ih, writeRowPkComponent_eq, List.append_assoc]

theorem encodeKey_eq (key : TrackedStateKey) :
    encodeKey key = keyPartBytes (utf8 key.schemaKey) keyPartFinal ++ fileIdBytes key.fileId ++
      rowPkCodecV1 :: componentsBytes key.rowPk.components := by
  simp [encodeKey, encodeKeyParts, writeRowPk, writeRowPkComponents_eq, writeFileId_eq,
    writeKeyString, writeKeyBytes_eq]

theorem encodeSchemaKeyPrefix_eq (schemaKey : String) :
    encodeSchemaKeyPrefix schemaKey = keyPartBytes (utf8 schemaKey) keyPartFinal := by
  simp [encodeSchemaKeyPrefix, writeKeyString, writeKeyBytes_eq]

theorem encodeSchemaFilePrefix_eq (schemaKey : String) (fileId : Option String) :
    encodeSchemaFilePrefix schemaKey fileId =
      keyPartBytes (utf8 schemaKey) keyPartFinal ++ fileIdBytes fileId := by
  simp [encodeSchemaFilePrefix, writeFileId_eq, writeKeyString, writeKeyBytes_eq]

theorem componentBytes_ne_nil (component : RowPkComponent) (t : UInt8) :
    componentBytes component t ≠ [] := by
  cases component <;> simp [componentBytes, writeRowPkComponent, writeKeyBytes]

theorem componentsBytes_ne_nil {components : List RowPkComponent} (h : components ≠ []) :
    componentsBytes components ≠ [] := by
  match components, h with
  | [c], _ => simpa [componentsBytes] using componentBytes_ne_nil c _
  | c :: _ :: _, _ => simp [componentsBytes, componentBytes_ne_nil]

/-! ## Reading at an offset -/

theorem drop_at_length (pre rest : List UInt8) : (pre ++ rest).drop pre.length = rest := by
  simp

theorem isKeyPartTerminator_final : isKeyPartTerminator keyPartFinal = true := rfl

theorem isKeyPartTerminator_more : isKeyPartTerminator keyPartMore = true := rfl

theorem scanKeyPartTail_cons_of_ne {byte : UInt8} (rest : List UInt8) (h : byte ≠ keyPartFinal) :
    scanKeyPartTail (byte :: rest) = (scanKeyPartTail rest).map
      fun (value, terminator, length) => (byte :: value, terminator, length + 1) := by
  rw [scanKeyPartTail.eq_def]
  simp only [if_pos h]

theorem scanKeyPartTail_escape (rest : List UInt8) :
    scanKeyPartTail (keyPartFinal :: keyEscape :: rest) = (scanKeyPartTail rest).map
      fun (value, terminator, length) => (keyPartFinal :: value, terminator, length + 2) := by
  simp [scanKeyPartTail, isKeyPartTerminator, keyPartFinal, keyPartMore, keyEscape]

theorem scanKeyPartTail_terminator {t : UInt8} (rest : List UInt8)
    (ht : isKeyPartTerminator t = true) :
    scanKeyPartTail (keyPartFinal :: t :: rest) = .ok ([], t, 2) := by
  simp [scanKeyPartTail, ht]

/-- The escaped bytes of a value, then its terminator, scan back to the value. -/
theorem scanKeyPartTail_escaped (value rest : List UInt8) {t : UInt8}
    (ht : isKeyPartTerminator t = true) :
    scanKeyPartTail (value.flatMap escapeByte ++ keyPartFinal :: t :: rest) =
      .ok (value, t, (value.flatMap escapeByte).length + 2) := by
  induction value with
  | nil => simpa using scanKeyPartTail_terminator rest ht
  | cons byte value ih =>
    by_cases hb : byte = keyPartFinal
    · subst hb
      have hs : (keyPartFinal :: value).flatMap escapeByte ++ keyPartFinal :: t :: rest =
          keyPartFinal :: keyEscape :: (value.flatMap escapeByte ++ keyPartFinal :: t :: rest) := by
        simp [escapeByte]
      rw [hs, scanKeyPartTail_escape, ih]
      simp [escapeByte]
    · have hs : (byte :: value).flatMap escapeByte ++ keyPartFinal :: t :: rest =
          byte :: (value.flatMap escapeByte ++ keyPartFinal :: t :: rest) := by
        simp [escapeByte, hb]
      rw [hs, scanKeyPartTail_cons_of_ne _ hb, ih]
      simp [escapeByte, hb]

theorem length_keyPartBytes (value : List UInt8) (t : UInt8) :
    (keyPartBytes value t).length = (value.flatMap escapeByte).length + 2 := by
  simp [keyPartBytes]

theorem keyPartBytes_append (value rest : List UInt8) (t : UInt8) :
    keyPartBytes value t ++ rest = value.flatMap escapeByte ++ keyPartFinal :: t :: rest := by
  simp [keyPartBytes]

theorem readKeyBytesCow_keyPartBytes (pre value rest : List UInt8) {t : UInt8} (field : String)
    (ht : isKeyPartTerminator t = true) :
    readKeyBytesCow (pre ++ keyPartBytes value t ++ rest) pre.length field =
      .ok (value, t, pre.length + (keyPartBytes value t).length) := by
  have hscan : scanKeyPart (pre ++ keyPartBytes value t ++ rest) pre.length =
      .ok ⟨value, t, pre.length + (keyPartBytes value t).length⟩ := by
    rw [scanKeyPart, if_pos (by simp), List.append_assoc, drop_at_length, keyPartBytes_append,
      scanKeyPartTail_escaped _ _ ht, length_keyPartBytes]
    rfl
  rw [readKeyBytesCow, hscan]

theorem fromUTF8?_utf8 (s : String) : String.fromUTF8? ⟨(utf8 s).toArray⟩ = some s := by
  have hb : (⟨(utf8 s).toArray⟩ : ByteArray) = s.toByteArray := by
    rw [utf8, Array.toArray_toList, String.toUTF8_eq_toByteArray]
  rw [hb, String.fromUTF8?, dif_pos s.isValidUTF8]
  rfl

theorem readKeyStringCow_keyPartBytes (pre rest : List UInt8) (s : String) {t : UInt8}
    (field : String) (ht : isKeyPartTerminator t = true) :
    readKeyStringCow (pre ++ keyPartBytes (utf8 s) t ++ rest) pre.length field =
      .ok (s, t, pre.length + (keyPartBytes (utf8 s) t).length) := by
  rw [readKeyStringCow, readKeyBytesCow_keyPartBytes _ _ _ _ ht]
  simp only [fromUTF8?_utf8]

theorem readFileIdCow_fileIdBytes (pre rest : List UInt8) (fileId : Option String) :
    readFileIdCow (pre ++ fileIdBytes fileId ++ rest) pre.length =
      .ok (fileId, pre.length + (fileIdBytes fileId).length) := by
  cases fileId with
  | none => simp [readFileIdCow, fileIdBytes, fileIdNone]
  | some fileId =>
    have hread := readKeyStringCow_keyPartBytes (pre ++ [fileIdSome]) rest fileId "file id"
      isKeyPartTerminator_final
    have hbytes : pre ++ fileIdBytes (some fileId) ++ rest =
        pre ++ [fileIdSome] ++ keyPartBytes (utf8 fileId) keyPartFinal ++ rest := by
      simp [fileIdBytes]
    rw [List.length_append, List.length_singleton, ← hbytes] at hread
    have htag : (pre ++ fileIdBytes (some fileId) ++ rest)[pre.length]? = some fileIdSome := by
      simp [fileIdBytes]
    rw [readFileIdCow, htag]
    simp only [fileIdSome, fileIdNone, show (1 : UInt8) ≠ 0 by decide, if_false, if_true]
    rw [hread]
    simp [fileIdBytes]
    omega

theorem readFixedWidthPart_slice (pre slice rest : List UInt8) {t : UInt8} {width : ℕ}
    (hlen : slice.length = width) (kind : String) (ht : isKeyPartTerminator t = true) :
    readFixedWidthPart (pre ++ slice ++ t :: rest) pre.length width kind =
      .ok (⟨slice, hlen⟩, t, pre.length + width + 1) := by
  subst hlen
  have hw : pre.length + slice.length ≤ (pre ++ slice ++ t :: rest).length := by simp
  have hterm : (pre ++ slice ++ t :: rest)[pre.length + slice.length]? = some t := by
    simp
  rw [readFixedWidthPart, dif_pos hw, hterm]
  simp [ht]

theorem u64FromBeBytes_toBeBytes (x : UInt64) : u64FromBeBytes (toBeBytes x) = x := by
  have hx : x.toNat < 256 ^ 8 := x.toNat_lt
  rw [u64FromBeBytes, toBeBytes, fromBeBytes_beBytes_of_lt hx, UInt64.ofNat_toNat]

theorem i64FromOrderedInteger_orderedIntegerFromI64 (value : Int64) :
    i64FromOrderedInteger (orderedIntegerFromI64 value) = value := by
  simp [i64FromOrderedInteger, orderedIntegerFromI64]

theorem readRowPkPart_componentBytes (pre rest : List UInt8) (component : RowPkComponent)
    {t : UInt8} (ht : isKeyPartTerminator t = true) :
    readRowPkPart (pre ++ componentBytes component t ++ rest) pre.length =
      .ok (component, t, pre.length + (componentBytes component t).length) := by
  cases component with
  | uuid bytes =>
    have hwidth : bytes.toList.length = rowPkUuidBytes := by simp [rowPkUuidBytes]
    have hread := readFixedWidthPart_slice (pre ++ [rowPkUuid]) bytes.toList rest hwidth
      "UUIDv7" ht
    have hbytes : pre ++ componentBytes (.uuid bytes) t ++ rest =
        pre ++ [rowPkUuid] ++ bytes.toList ++ t :: rest := by
      simp [componentBytes, writeRowPkComponent]
    rw [List.length_append, List.length_singleton, ← hbytes] at hread
    have htag : (pre ++ componentBytes (.uuid bytes) t ++ rest)[pre.length]? = some rowPkUuid := by
      simp [componentBytes, writeRowPkComponent]
    rw [readRowPkPart, htag]
    simp only [rowPkString, rowPkBytes, rowPkUuid, show (0 : UInt8) ≠ 2 by decide,
      show (0 : UInt8) ≠ 3 by decide, if_false, if_true]
    rw [hread]
    simp [componentBytes, writeRowPkComponent, rowPkUuidBytes, Vector.toList]
  | integer value =>
    have hlen : (toBeBytes (orderedIntegerFromI64 value)).length = rowPkIntegerBytes := by
      simp [toBeBytes, rowPkIntegerBytes]
    have hread := readFixedWidthPart_slice (pre ++ [rowPkInteger])
      (toBeBytes (orderedIntegerFromI64 value)) rest hlen "integer" ht
    have hbytes : pre ++ componentBytes (.integer value) t ++ rest =
        pre ++ [rowPkInteger] ++ toBeBytes (orderedIntegerFromI64 value) ++ t :: rest := by
      simp [componentBytes, writeRowPkComponent]
    rw [List.length_append, List.length_singleton, ← hbytes] at hread
    have htag : (pre ++ componentBytes (.integer value) t ++ rest)[pre.length]? =
        some rowPkInteger := by
      simp [componentBytes, writeRowPkComponent]
    rw [readRowPkPart, htag]
    simp only [rowPkString, rowPkBytes, rowPkUuid, rowPkInteger, show (1 : UInt8) ≠ 2 by decide,
      show (1 : UInt8) ≠ 3 by decide, show (1 : UInt8) ≠ 0 by decide, if_false, if_true]
    rw [hread]
    simp [componentBytes, writeRowPkComponent, u64FromBeBytes_toBeBytes,
      i64FromOrderedInteger_orderedIntegerFromI64, hlen]
    omega
  | string value =>
    have hread := readKeyStringCow_keyPartBytes (pre ++ [rowPkString]) rest value
      "row primary-key part" ht
    have hbytes : pre ++ componentBytes (.string value) t ++ rest =
        pre ++ [rowPkString] ++ keyPartBytes (utf8 value) t ++ rest := by
      simp [componentBytes, writeRowPkComponent, writeKeyBytes_eq]
    rw [List.length_append, List.length_singleton, ← hbytes] at hread
    have htag : (pre ++ componentBytes (.string value) t ++ rest)[pre.length]? =
        some rowPkString := by
      simp [componentBytes, writeRowPkComponent, writeKeyBytes_eq]
    rw [readRowPkPart, htag]
    dsimp only
    rw [if_pos rfl, readKeyString, hread]
    simp [componentBytes, writeRowPkComponent, writeKeyBytes_eq]
    omega
  | bytes value =>
    have hread := readKeyBytesCow_keyPartBytes (pre ++ [rowPkBytes]) value rest
      "row primary-key bytes" ht
    have hbytes : pre ++ componentBytes (.bytes value) t ++ rest =
        pre ++ [rowPkBytes] ++ keyPartBytes value t ++ rest := by
      simp [componentBytes, writeRowPkComponent, writeKeyBytes_eq]
    rw [List.length_append, List.length_singleton, ← hbytes] at hread
    have htag : (pre ++ componentBytes (.bytes value) t ++ rest)[pre.length]? =
        some rowPkBytes := by
      simp [componentBytes, writeRowPkComponent, writeKeyBytes_eq]
    rw [readRowPkPart, htag]
    simp only [rowPkString, rowPkBytes, show (3 : UInt8) ≠ 2 by decide, if_false, if_true]
    rw [readKeyBytes, hread]
    simp [componentBytes, writeRowPkComponent, writeKeyBytes_eq]
    omega

theorem readRowPkLoop_componentsBytes (pre rest : List UInt8) (acc : List RowPkComponent)
    {components : List RowPkComponent} (h : components ≠ []) :
    readRowPkLoop (pre ++ componentsBytes components ++ rest) pre.length acc =
      .ok (acc ++ components, pre.length + (componentsBytes components).length) := by
  induction components generalizing pre acc with
  | nil => exact absurd rfl h
  | cons component tail ih =>
    have hne : ¬(pre ++ componentsBytes (component :: tail) ++ rest).length ≤ pre.length := by
      have := componentsBytes_ne_nil h
      simp only [List.length_append, not_le]
      have : 0 < (componentsBytes (component :: tail)).length := List.length_pos_of_ne_nil this
      omega
    cases tail with
    | nil =>
      have hpart := readRowPkPart_componentBytes pre rest component isKeyPartTerminator_final
      rw [readRowPkLoop, if_neg hne]
      split
      · rename_i e hx
        simp only [componentsBytes] at hx
        rw [hpart] at hx
        cases hx
      · rename_i part terminator next hx
        simp only [componentsBytes] at hx
        rw [hpart] at hx
        simp only [Except.ok.injEq, Prod.mk.injEq] at hx
        obtain ⟨rfl, rfl, rfl⟩ := hx
        simp [componentsBytes]
    | cons next tail =>
      have hbytes : pre ++ componentsBytes (component :: next :: tail) ++ rest =
          pre ++ componentBytes component keyPartMore ++ (componentsBytes (next :: tail) ++ rest) := by
        simp [componentsBytes]
      have hpart := readRowPkPart_componentBytes pre (componentsBytes (next :: tail) ++ rest)
        component isKeyPartTerminator_more
      rw [← hbytes] at hpart
      have hrec := ih (pre ++ componentBytes component keyPartMore) (acc ++ [component])
        (List.cons_ne_nil _ _)
      rw [List.length_append] at hrec
      rw [readRowPkLoop, if_neg hne]
      split
      · rename_i e hx
        rw [hpart] at hx
        cases hx
      · rename_i part terminator offset hx
        rw [hpart] at hx
        simp only [Except.ok.injEq, Prod.mk.injEq] at hx
        obtain ⟨rfl, rfl, rfl⟩ := hx
        rw [if_neg (by decide), hbytes]
        simp only [List.append_assoc] at hrec ⊢
        rw [hrec]
        simp [componentsBytes]
        omega

theorem fromComponents_of_valid {components : List RowPkComponent}
    (h : (RowPk.mk components).Valid) : RowPk.fromComponents components = .ok ⟨components⟩ := by
  obtain ⟨hne, hnul⟩ := h
  have hfind : components.findIdx? RowPkComponent.hasNul = none := by
    rw [List.findIdx?_eq_none_iff]
    intro c hc
    simp [hnul c hc]
  have hempty : components.isEmpty = false := List.isEmpty_eq_false_iff.mpr hne
  simp [RowPk.fromComponents, hempty, hfind]

theorem readRowPk_rowPkBytes (pre rest : List UInt8) {rowPk : RowPk} (h : rowPk.Valid) :
    readRowPk (pre ++ rowPkCodecV1 :: componentsBytes rowPk.components ++ rest) pre.length =
      .ok (rowPk, pre.length + 1 + (componentsBytes rowPk.components).length) := by
  obtain ⟨components⟩ := rowPk
  have hfrom := fromComponents_of_valid h
  have hversion : (pre ++ rowPkCodecV1 :: componentsBytes components ++ rest)[pre.length]? =
      some rowPkCodecV1 := by simp
  have hlen : ¬(pre ++ rowPkCodecV1 :: componentsBytes components ++ rest).length ≤
      pre.length + 1 := by
    have hpos : 0 < (componentsBytes components).length :=
      List.length_pos_of_ne_nil (componentsBytes_ne_nil h.1)
    simp only [List.length_append, List.length_cons, not_le]
    omega
  have hbytes : pre ++ rowPkCodecV1 :: componentsBytes components ++ rest =
      (pre ++ [rowPkCodecV1]) ++ componentsBytes components ++ rest := by simp
  have hoff : pre.length + 1 = (pre ++ [rowPkCodecV1]).length := by simp
  rw [readRowPk, hversion]
  simp only [ne_eq, not_true_eq_false, if_false, if_neg hlen]
  match components, h, hfrom with
  | [component], _, hfrom =>
    have hpart := readRowPkPart_componentBytes (pre ++ [rowPkCodecV1]) rest component
      isKeyPartTerminator_final
    rw [hbytes, hoff]
    simp only [componentsBytes] at hpart ⊢
    rw [hpart]
    dsimp only
    rw [if_pos rfl, hfrom]
  | component :: next :: tail, _, hfrom =>
    have hpart := readRowPkPart_componentBytes (pre ++ [rowPkCodecV1])
      (componentsBytes (next :: tail) ++ rest) component isKeyPartTerminator_more
    have hloop := readRowPkLoop_componentsBytes
      (pre ++ [rowPkCodecV1] ++ componentBytes component keyPartMore) rest [component]
      (List.cons_ne_nil next tail)
    have hsplit : pre ++ rowPkCodecV1 :: componentsBytes (component :: next :: tail) ++ rest =
        pre ++ [rowPkCodecV1] ++ componentBytes component keyPartMore ++
          (componentsBytes (next :: tail) ++ rest) := by simp [componentsBytes]
    rw [hsplit, hoff, hpart]
    dsimp only
    rw [if_neg (by decide)]
    simp only [List.append_assoc, List.length_append] at hloop ⊢
    rw [Nat.add_assoc pre.length, hloop]
    dsimp only
    rw [List.singleton_append, hfrom]
    simp [componentsBytes]
    omega

/-! ## Decoding a whole key -/

/-- A valid key decodes from the front of its encoding; any byte after it is
reported as trailing. -/
theorem decodeKeyBorrowed_encodeKey_append {key : TrackedStateKey} (h : key.rowPk.Valid)
    (rest : List UInt8) :
    decodeKeyBorrowed (encodeKey key ++ rest) =
      if rest = [] then .ok key else .error (keyCodecError "has trailing bytes") := by
  obtain ⟨schemaKey, fileId, rowPk⟩ := key
  have hschema := readKeyStringCow_keyPartBytes []
    (fileIdBytes fileId ++ rowPkCodecV1 :: componentsBytes rowPk.components ++ rest) schemaKey
    "schema key" isKeyPartTerminator_final
  have hfile := readFileIdCow_fileIdBytes (keyPartBytes (utf8 schemaKey) keyPartFinal)
    (rowPkCodecV1 :: componentsBytes rowPk.components ++ rest) fileId
  have hrow := readRowPk_rowPkBytes
    (keyPartBytes (utf8 schemaKey) keyPartFinal ++ fileIdBytes fileId) rest h
  simp only [List.append_assoc, List.nil_append, List.length_nil, Nat.zero_add,
    List.cons_append, List.length_append] at hschema hfile hrow
  rw [encodeKey_eq, decodeKeyBorrowed]
  simp only [List.append_assoc, List.cons_append]
  rw [hschema]
  dsimp only
  rw [if_neg (by simp), hfile]
  dsimp only
  rw [hrow]
  dsimp only
  by_cases hr : rest = []
  · subst hr
    simp
    omega
  · have hlen : rest.length ≠ 0 := by simpa using hr
    rw [if_pos (by simp; omega), if_neg hr]

theorem decodeKeyBorrowed_encodeKey {key : TrackedStateKey} (h : key.rowPk.Valid) :
    decodeKeyBorrowed (encodeKey key) = .ok key := by
  simpa using decodeKeyBorrowed_encodeKey_append h []

/-- Decoding is deterministic, so a valid key's encoding is never a proper prefix of
another valid key's encoding: the longer one would decode with trailing bytes. -/
theorem encodeKey_prefix_eq {key other : TrackedStateKey} (h : key.rowPk.Valid)
    (hother : other.rowPk.Valid) (hp : encodeKey key <+: encodeKey other) :
    encodeKey key = encodeKey other := by
  obtain ⟨rest, hrest⟩ := hp
  have hdec := decodeKeyBorrowed_encodeKey_append h rest
  rw [hrest, decodeKeyBorrowed_encodeKey hother] at hdec
  by_cases hr : rest = []
  · subst hr
    simpa using hrest
  · rw [if_neg hr] at hdec
    cases hdec

theorem schemaKey_of_keyPartBytes_append {s s' : String} {x y : List UInt8}
    (h : keyPartBytes (utf8 s) keyPartFinal ++ x = keyPartBytes (utf8 s') keyPartFinal ++ y) :
    s = s' := by
  have hs := readKeyStringCow_keyPartBytes [] x s "schema key" isKeyPartTerminator_final
  have hs' := readKeyStringCow_keyPartBytes [] y s' "schema key" isKeyPartTerminator_final
  simp only [List.nil_append, List.length_nil] at hs hs'
  rw [h, hs'] at hs
  simp only [Except.ok.injEq, Prod.mk.injEq] at hs
  exact hs.1.symm

theorem encodeSchemaKeyPrefix_prefix_iff (schemaKey : String) (key : TrackedStateKey) :
    encodeSchemaKeyPrefix schemaKey <+: encodeKey key ↔ key.schemaKey = schemaKey := by
  constructor
  · rintro ⟨rest, hrest⟩
    rw [encodeSchemaKeyPrefix_eq, encodeKey_eq, List.append_assoc] at hrest
    exact (schemaKey_of_keyPartBytes_append hrest).symm
  · intro h
    rw [encodeSchemaKeyPrefix_eq, encodeKey_eq, h, List.append_assoc]
    exact List.prefix_append _ _

theorem encodeSchemaFilePrefix_prefix_iff (schemaKey : String) (fileId : Option String)
    (key : TrackedStateKey) :
    encodeSchemaFilePrefix schemaKey fileId <+: encodeKey key ↔
      key.schemaKey = schemaKey ∧ key.fileId = fileId := by
  constructor
  · rintro ⟨rest, hrest⟩
    rw [encodeSchemaFilePrefix_eq, encodeKey_eq] at hrest
    have hschema : schemaKey = key.schemaKey := by
      apply schemaKey_of_keyPartBytes_append (x := fileIdBytes fileId ++ rest)
        (y := fileIdBytes key.fileId ++ rowPkCodecV1 :: componentsBytes key.rowPk.components)
      simpa only [List.append_assoc] using hrest
    refine ⟨hschema.symm, ?_⟩
    have hf := readFileIdCow_fileIdBytes (keyPartBytes (utf8 schemaKey) keyPartFinal) rest fileId
    have hf' := readFileIdCow_fileIdBytes (keyPartBytes (utf8 schemaKey) keyPartFinal)
      (rowPkCodecV1 :: componentsBytes key.rowPk.components) key.fileId
    rw [hrest, ← hschema, hf'] at hf
    simp only [Except.ok.injEq, Prod.mk.injEq] at hf
    exact hf.1
  · rintro ⟨hs, hf⟩
    rw [encodeSchemaFilePrefix_eq, encodeKey_eq, hs, hf]
    exact List.prefix_append _ _

end Lix.KeyCodec
