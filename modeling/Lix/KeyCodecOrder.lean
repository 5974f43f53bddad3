import Lix.KeyCodecDecode

/-! Order preservation of the tracked-state key format: the bytes of two encoded keys
compare like the keys under their derived order. A part ends with `00 00` or `00 01`
and a NUL inside it is written `00 ff`, so a part that is a prefix of another sorts
first whatever follows it. -/
namespace Lix.KeyCodec
open LexCompare

section Escape

theorem escapeByte_append (byte : UInt8) (rest : List UInt8) :
    escapeByte byte ++ rest =
      byte :: ((if byte = keyPartFinal then [keyEscape] else []) ++ rest) := by
  unfold escapeByte
  split <;> simp_all

theorem compare_uint8_of_lt {x y : UInt8} (h : x < y) : compare x y = .lt := by
  rw [compare_uint8]
  exact compare_nat_of_lt (UInt8.lt_iff_toNat_lt.mp h)

theorem keyPartFinal_lt_of_ne {byte : UInt8} (h : byte ≠ keyPartFinal) : keyPartFinal < byte := by
  have h0 : keyPartFinal.toNat = 0 := rfl
  have hb : byte.toNat ≠ 0 := fun hb => h (UInt8.toNat_inj.mp (hb.trans h0.symm))
  rw [UInt8.lt_iff_toNat_lt, h0]
  omega

/-- An escaped part ended by `00 t` sorts before any longer escaped part, because the
byte after its `00` is a terminator below the escape `ff`. -/
theorem compare_end_escaped {t : UInt8} (ht : t < keyEscape) (r : List UInt8) (y : UInt8)
    (b rest : List UInt8) :
    compare (keyPartFinal :: t :: r) ((y :: b).flatMap escapeByte ++ rest) = .lt := by
  rw [List.flatMap_cons, List.append_assoc, escapeByte_append]
  by_cases hy : y = keyPartFinal
  · subst hy
    have hne : t ≠ keyEscape := by
      intro h
      rw [h] at ht
      exact absurd ht (by decide)
    rw [compare_cons_left, if_pos rfl, List.singleton_append, compare_cons_of_ne _ _ hne]
    exact compare_uint8_of_lt ht
  · rw [compare_cons_of_ne _ _ (Ne.symm hy)]
    exact compare_uint8_of_lt (keyPartFinal_lt_of_ne hy)

theorem compare_escaped {t t' : UInt8} (ht : t < keyEscape) (ht' : t' < keyEscape)
    (a b r r' : List UInt8) :
    compare (a.flatMap escapeByte ++ keyPartFinal :: t :: r)
        (b.flatMap escapeByte ++ keyPartFinal :: t' :: r') =
      (compare a b).then (compare (t :: r) (t' :: r')) := by
  induction a generalizing b with
  | nil =>
    cases b with
    | nil =>
      rw [List.flatMap_nil, List.nil_append, List.nil_append, compare_cons_left]
      rfl
    | cons y b =>
      rw [List.flatMap_nil, List.nil_append, compare_end_escaped ht]
      rfl
  | cons x a ih =>
    cases b with
    | nil =>
      have hgt : compare ((x :: a).flatMap escapeByte ++ keyPartFinal :: t :: r)
          (keyPartFinal :: t' :: r') = .gt := by
        rw [Std.OrientedOrd.eq_swap, compare_end_escaped ht' r' x a]
        rfl
      rw [List.flatMap_nil, List.nil_append, hgt]
      rfl
    | cons y b =>
      by_cases hxy : x = y
      · subst hxy
        rw [List.flatMap_cons, List.flatMap_cons, List.append_assoc, List.append_assoc,
          compare_append_left, ih, compare_cons_left]
      · rw [compare_cons_of_ne _ _ hxy, then_of_ne_eq (fun h => hxy (Std.LawfulEqOrd.eq_of_compare h)),
          List.flatMap_cons, List.flatMap_cons, List.append_assoc, List.append_assoc,
          escapeByte_append, escapeByte_append, compare_cons_of_ne _ _ hxy]

theorem compare_keyPartBytes {t t' : UInt8} (ht : t < keyEscape) (ht' : t' < keyEscape)
    (a b r r' : List UInt8) :
    compare (keyPartBytes a t ++ r) (keyPartBytes b t' ++ r') =
      (compare a b).then (compare (t :: r) (t' :: r')) := by
  rw [keyPartBytes_append, keyPartBytes_append, compare_escaped ht ht']

theorem keyPartFinal_lt_keyEscape : keyPartFinal < keyEscape := by decide

end Escape

section Fields

theorem compare_fileIdBytes (f g : Option String) (r r' : List UInt8) :
    compare (fileIdBytes f ++ r) (fileIdBytes g ++ r') =
      (compare (f.map utf8) (g.map utf8)).then (compare r r') := by
  cases f with
  | none =>
    cases g with
    | none => exact compare_cons_left _ r r'
    | some g => rfl
  | some f =>
    cases g with
    | none => rfl
    | some g =>
      simp only [fileIdBytes, List.cons_append]
      rw [compare_cons_left, compare_keyPartBytes keyPartFinal_lt_keyEscape
        keyPartFinal_lt_keyEscape, compare_cons_left]
      rfl

theorem compare_int64 (a b : Int64) : compare a b = compare a.toInt b.toInt := by
  simp only [compare, compareOfLessAndEq, Int64.lt_iff_toInt_lt, Int64.toInt_inj]

theorem toInt_eq_cond (value : Int64) :
    value.toInt = if 2 * value.toUInt64.toNat < 2 ^ 64 then (value.toUInt64.toNat : ℤ)
      else (value.toUInt64.toNat : ℤ) - 2 ^ 64 := by
  rw [← Int64.toInt_toBitVec, BitVec.toInt_eq_toNat_cond, Int64.toNat_toBitVec]
  push_cast
  rfl

/-- Flipping the sign bit maps the signed range onto the unsigned one in order:
the ordered integer is the value shifted up by `2^63`. -/
theorem toNat_orderedIntegerFromI64 (value : Int64) :
    (orderedIntegerFromI64 value).toNat = (value.toInt + 2 ^ 63).toNat := by
  have hbit : ((1 : UInt64) <<< 63).toNat = 2 ^ 63 := by decide
  have hn : value.toUInt64.toNat < 2 ^ 64 := value.toUInt64.toNat_lt
  rw [orderedIntegerFromI64, UInt64.toNat_xor, hbit, toInt_eq_cond]
  generalize value.toUInt64.toNat = n at hn ⊢
  have hdiv : (n ^^^ 2 ^ 63) / 2 ^ 63 = n / 2 ^ 63 ^^^ 1 := by
    rw [Nat.xor_div_two_pow, Nat.div_self (by positivity)]
  have hmod : (n ^^^ 2 ^ 63) % 2 ^ 63 = n % 2 ^ 63 := by
    rw [Nat.xor_mod_two_pow, Nat.mod_self, Nat.xor_zero]
  rw [← Nat.div_add_mod (n ^^^ 2 ^ 63) (2 ^ 63), hdiv, hmod]
  obtain hq | hq : n / 2 ^ 63 = 0 ∨ n / 2 ^ 63 = 1 := by omega
  · rw [hq, if_pos (by omega)]
    norm_num
    omega
  · rw [hq, if_neg (by omega)]
    norm_num
    omega

theorem compare_orderedIntegerFromI64 (a b : Int64) :
    compare (toBeBytes (orderedIntegerFromI64 a)) (toBeBytes (orderedIntegerFromI64 b)) =
      compare a b := by
  have ha := a.le_toInt
  have hb := b.le_toInt
  rw [toBeBytes, toBeBytes, compare_beBytes (UInt64.toNat_lt _) (UInt64.toNat_lt _),
    toNat_orderedIntegerFromI64, toNat_orderedIntegerFromI64, compare_int64]
  rcases lt_trichotomy a.toInt b.toInt with h | h | h
  · rw [compare_nat_of_lt (by omega), Int.compare_eq_lt.mpr h]
  · rw [h, Std.ReflOrd.compare_self, Std.ReflOrd.compare_self]
  · rw [compare_nat_of_gt (by omega), Int.compare_eq_gt.mpr h]

end Fields

section Components

theorem cmp_of_variant_ne {c c' : RowPkComponent} (h : c.variant ≠ c'.variant) :
    compare c c' = compare c.variant c'.variant := by
  cases c <;> cases c' <;> first | (exfalso; exact h rfl) | rfl

/-- Every component encoding starts with its variant tag. -/
theorem componentBytes_append_eq_cons (c : RowPkComponent) (t : UInt8) (r : List UInt8) :
    ∃ tail, componentBytes c t ++ r = c.variant.toUInt8 :: tail := by
  cases c <;> simp [componentBytes, writeRowPkComponent, writeKeyBytes,
    RowPkComponent.variant] <;> rfl

theorem compare_variant_tags {c c' : RowPkComponent} :
    compare c.variant.toUInt8 c'.variant.toUInt8 = compare c.variant c'.variant := by
  have hv : ∀ c : RowPkComponent, c.variant.toUInt8.toNat = c.variant := by
    intro c
    cases c <;> rfl
  rw [compare_uint8, hv, hv]

theorem compare_componentBytes_of_variant_ne {c c' : RowPkComponent}
    (hv : c.variant ≠ c'.variant) (t t' : UInt8) (r r' : List UInt8) :
    compare (componentBytes c t ++ r) (componentBytes c' t' ++ r') = compare c c' := by
  obtain ⟨tail, htail⟩ := componentBytes_append_eq_cons c t r
  obtain ⟨tail', htail'⟩ := componentBytes_append_eq_cons c' t' r'
  have htag : c.variant.toUInt8 ≠ c'.variant.toUInt8 := by
    intro h
    apply hv
    have hc := congrArg (fun x => compare x c'.variant.toUInt8) h
    simp only [Std.ReflOrd.compare_self, compare_variant_tags] at hc
    exact Nat.compare_eq_eq.mp hc
  rw [htail, htail', compare_cons_of_ne _ _ htag, compare_variant_tags, cmp_of_variant_ne hv]

/-- One component with its terminator compares by the derived `Ord` of the component
first, then by the terminator and what follows. -/
theorem compare_componentBytes {t t' : UInt8} (ht : t < keyEscape) (ht' : t' < keyEscape)
    (c c' : RowPkComponent) (r r' : List UInt8) :
    compare (componentBytes c t ++ r) (componentBytes c' t' ++ r') =
      (compare c c').then (compare (t :: r) (t' :: r')) := by
  by_cases hv : c.variant = c'.variant
  swap
  · have hne : compare c c' ≠ .eq := by
      rw [cmp_of_variant_ne hv]
      exact fun h => hv (Nat.compare_eq_eq.mp h)
    rw [compare_componentBytes_of_variant_ne hv, then_of_ne_eq hne]
  cases c <;> cases c' <;> simp [RowPkComponent.variant] at hv <;>
    simp only [componentBytes, writeRowPkComponent, writeKeyBytes, List.nil_append,
      List.append_assoc, List.cons_append]
  case uuid.uuid a b =>
    rw [compare_cons_left, compare_append_of_length_eq _ _ (by simp),
      ← Vector.compare_eq_compare_toList]
    rfl
  case integer.integer a b =>
    rw [compare_cons_left, compare_append_of_length_eq _ _ (by simp [toBeBytes]),
      compare_orderedIntegerFromI64]
    rfl
  case string.string a b =>
    rw [compare_cons_left, compare_escaped ht ht']
    rfl
  case bytes.bytes a b =>
    rw [compare_cons_left, compare_escaped ht ht']
    rfl

theorem componentsBytes_nil : componentsBytes [] = [] := by
  simp [componentsBytes]

theorem componentsBytes_cons (c : RowPkComponent) (tl : List RowPkComponent) :
    componentsBytes (c :: tl) =
      componentBytes c (if tl = [] then keyPartFinal else keyPartMore) ++ componentsBytes tl := by
  cases tl with
  | nil => simp [componentsBytes]
  | cons d ds => simp [componentsBytes]

theorem componentsBytes_eq_cons (c : RowPkComponent) (tl : List RowPkComponent) :
    ∃ x xs, componentsBytes (c :: tl) = x :: xs :=
  List.exists_cons_of_ne_nil (componentsBytes_ne_nil (List.cons_ne_nil c tl))

/-- The component loop of `write_row_pk` is an order embedding of component lists: the
terminator of each component says whether another one follows, so a shorter tuple sorts
first. -/
theorem compare_componentsBytes (cs cs' : List RowPkComponent) :
    compare (componentsBytes cs) (componentsBytes cs') = compare cs cs' := by
  induction cs generalizing cs' with
  | nil =>
    cases cs' with
    | nil =>
      rw [componentsBytes_nil]
      rfl
    | cons c' tl' =>
      obtain ⟨x, xs, hx⟩ := componentsBytes_eq_cons c' tl'
      rw [hx, componentsBytes_nil]
      rfl
  | cons c tl ih =>
    cases cs' with
    | nil =>
      obtain ⟨x, xs, hx⟩ := componentsBytes_eq_cons c tl
      rw [hx, componentsBytes_nil]
      rfl
    | cons c' tl' =>
      have hterm : ∀ l : List RowPkComponent,
          (if l = [] then keyPartFinal else keyPartMore) < keyEscape := by
        intro l
        split <;> decide
      have hrhs : compare (c :: tl) (c' :: tl') = (compare c c').then (compare tl tl') :=
        List.compare_cons_cons
      rw [componentsBytes_cons, componentsBytes_cons,
        compare_componentBytes (hterm tl) (hterm tl'), hrhs]
      congr 1
      rcases tl with _ | ⟨d, ds⟩ <;> rcases tl' with _ | ⟨d', ds'⟩
      · rw [componentsBytes_nil, compare_cons_left]
        rfl
      · have hlt : compare keyPartFinal keyPartMore = .lt := by decide
        rw [if_pos rfl, if_neg (List.cons_ne_nil d' ds'), List.compare_cons_cons, hlt]
        rfl
      · have hgt : compare keyPartMore keyPartFinal = .gt := by decide
        rw [if_neg (List.cons_ne_nil d ds), if_pos rfl, List.compare_cons_cons, hgt]
        rfl
      · rw [if_neg (List.cons_ne_nil d ds), if_neg (List.cons_ne_nil d' ds'), compare_cons_left,
          ih]

end Components

/-- The byte order of encoded keys is the derived order of the keys. -/
theorem compare_encodeKey (k k' : TrackedStateKey) :
    compare (encodeKey k) (encodeKey k') = compare k k' := by
  rw [encodeKey_eq, encodeKey_eq, List.append_assoc, List.append_assoc,
    compare_keyPartBytes keyPartFinal_lt_keyEscape keyPartFinal_lt_keyEscape,
    compare_cons_left, compare_fileIdBytes, compare_cons_left, compare_componentsBytes]
  rfl

section Lawful

/-! The derived order on keys is a lawful total order: transitivity and orientation
come from the byte order through `compare_encodeKey`, antisymmetry from the fields. -/

theorem utf8_injective : Function.Injective utf8 := by
  intro s s' h
  have hs := fromUTF8?_utf8 s
  rw [h, fromUTF8?_utf8] at hs
  exact (Option.some.inj hs).symm

instance : Std.TransOrd TrackedStateKey where
  eq_swap {a b} := by
    rw [← compare_encodeKey, ← compare_encodeKey]
    exact Std.OrientedOrd.eq_swap
  isLE_trans {a b c} hab hbc := by
    rw [← compare_encodeKey] at hab hbc ⊢
    exact Std.TransOrd.isLE_trans hab hbc

instance : Std.LawfulEqOrd RowPkComponent where
  compare_self {c} := by
    cases c with
    | uuid a => exact (Std.ReflOrd.compare_self : compare a a = .eq)
    | integer a => exact (Std.ReflOrd.compare_self : compare a a = .eq)
    | string a => exact (Std.ReflOrd.compare_self : compare (utf8 a) (utf8 a) = .eq)
    | bytes a => exact (Std.ReflOrd.compare_self : compare a a = .eq)
  eq_of_compare {c c'} h := by
    by_cases hv : c.variant = c'.variant
    · cases c <;> cases c' <;> simp [RowPkComponent.variant] at hv
      case uuid.uuid a b =>
        have hab : compare a b = .eq := h
        rw [Std.LawfulEqOrd.eq_of_compare hab]
      case integer.integer a b =>
        have hab : compare a.toInt b.toInt = .eq := by
          rw [← compare_int64]
          exact h
        rw [Int64.toInt_inj.mp (Int.compare_eq_eq.mp hab)]
      case string.string a b =>
        have hab : compare (utf8 a) (utf8 b) = .eq := h
        rw [utf8_injective (Std.LawfulEqOrd.eq_of_compare hab)]
      case bytes.bytes a b =>
        have hab : compare a b = .eq := h
        rw [Std.LawfulEqOrd.eq_of_compare hab]
    · rw [cmp_of_variant_ne hv] at h
      exact absurd (Nat.compare_eq_eq.mp h) hv

instance : Std.LawfulEqOrd TrackedStateKey where
  compare_self {k} := by
    rw [← compare_encodeKey]
    exact Std.ReflOrd.compare_self
  eq_of_compare {k k'} h := by
    obtain ⟨schemaKey, fileId, ⟨components⟩⟩ := k
    obtain ⟨schemaKey', fileId', ⟨components'⟩⟩ := k'
    have h' : (compare (utf8 schemaKey) (utf8 schemaKey')).then
        ((compare (fileId.map utf8) (fileId'.map utf8)).then
          (compare components components')) = .eq := h
    simp only [Ordering.then_eq_eq] at h'
    obtain ⟨hs, hf, hc⟩ := h'
    rw [utf8_injective (Std.LawfulEqOrd.eq_of_compare hs),
      Option.map_injective utf8_injective (Std.LawfulEqOrd.eq_of_compare hf),
      Std.LawfulEqOrd.eq_of_compare hc]

end Lawful

theorem encodeKey_order_and_roundTrip (k k' : TrackedStateKey) (hk : k.rowPk.Valid)
    (hk' : k'.rowPk.Valid) :
    compare (encodeKey k) (encodeKey k') = compare k k' ∧
      decodeKey (encodeKey k) = .ok k ∧ decodeKeyBorrowed (encodeKey k) = .ok k ∧
      decodeKeyShared (encodeKey k) = .ok k ∧
      (encodeKey k <+: encodeKey k' → encodeKey k = encodeKey k') ∧
      (∀ schemaKey, encodeSchemaKeyPrefix schemaKey <+: encodeKey k ↔ k.schemaKey = schemaKey) ∧
      (∀ schemaKey fileId, encodeSchemaFilePrefix schemaKey fileId <+: encodeKey k ↔
        k.schemaKey = schemaKey ∧ k.fileId = fileId) := by
  have hdec := decodeKeyBorrowed_encodeKey hk
  refine ⟨compare_encodeKey k k', hdec, hdec, hdec, encodeKey_prefix_eq hk hk', ?_, ?_⟩
  · intro schemaKey
    exact encodeSchemaKeyPrefix_prefix_iff schemaKey k
  · intro schemaKey fileId
    exact encodeSchemaFilePrefix_prefix_iff schemaKey fileId k

theorem encodeKey_order_and_roundTrip_sample :
    RowPk.Valid ⟨[.integer (-3), .bytes [0, 7]]⟩ ∧ RowPk.Valid ⟨[.integer 5]⟩ ∧
      compare (encodeKey (⟨"lix_key_value", none, ⟨[.integer (-3), .bytes [0, 7]]⟩⟩ : TrackedStateKey)) (encodeKey (⟨"lix_key_value", some "f", ⟨[.integer 5]⟩⟩ : TrackedStateKey)) = compare (⟨"lix_key_value", none, ⟨[.integer (-3), .bytes [0, 7]]⟩⟩ : TrackedStateKey) (⟨"lix_key_value", some "f", ⟨[.integer 5]⟩⟩ : TrackedStateKey) ∧
      decodeKey (encodeKey (⟨"lix_key_value", none, ⟨[.integer (-3), .bytes [0, 7]]⟩⟩ : TrackedStateKey)) = .ok (⟨"lix_key_value", none, ⟨[.integer (-3), .bytes [0, 7]]⟩⟩ : TrackedStateKey) ∧
      decodeKeyBorrowed (encodeKey (⟨"lix_key_value", none, ⟨[.integer (-3), .bytes [0, 7]]⟩⟩ : TrackedStateKey)) = .ok (⟨"lix_key_value", none, ⟨[.integer (-3), .bytes [0, 7]]⟩⟩ : TrackedStateKey) ∧
      decodeKeyShared (encodeKey (⟨"lix_key_value", none, ⟨[.integer (-3), .bytes [0, 7]]⟩⟩ : TrackedStateKey)) = .ok (⟨"lix_key_value", none, ⟨[.integer (-3), .bytes [0, 7]]⟩⟩ : TrackedStateKey) ∧
      (encodeKey (⟨"lix_key_value", none, ⟨[.integer (-3), .bytes [0, 7]]⟩⟩ : TrackedStateKey) <+: encodeKey (⟨"lix_key_value", some "f", ⟨[.integer 5]⟩⟩ : TrackedStateKey) → encodeKey (⟨"lix_key_value", none, ⟨[.integer (-3), .bytes [0, 7]]⟩⟩ : TrackedStateKey) = encodeKey (⟨"lix_key_value", some "f", ⟨[.integer 5]⟩⟩ : TrackedStateKey)) ∧
      (∀ schemaKey, encodeSchemaKeyPrefix schemaKey <+: encodeKey (⟨"lix_key_value", none, ⟨[.integer (-3), .bytes [0, 7]]⟩⟩ : TrackedStateKey) ↔
        "lix_key_value" = schemaKey) ∧
      (∀ schemaKey fileId, encodeSchemaFilePrefix schemaKey fileId <+: encodeKey (⟨"lix_key_value", none, ⟨[.integer (-3), .bytes [0, 7]]⟩⟩ : TrackedStateKey) ↔
        "lix_key_value" = schemaKey ∧ none = fileId) := by
  have hk : RowPk.Valid ⟨[.integer (-3), .bytes [0, 7]]⟩ := ⟨by simp, by decide⟩
  have hk' : RowPk.Valid ⟨[.integer 5]⟩ := ⟨by simp, by decide⟩
  exact ⟨hk, hk', encodeKey_order_and_roundTrip _ _ hk hk'⟩

end Lix.KeyCodec
