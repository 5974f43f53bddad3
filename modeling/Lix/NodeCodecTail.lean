import Lix.NodeCodec

/-! The state tail is self-delimiting and canonical. Read from any position where the writer put
it, the tail gives back the deletion bit and both timestamps and stops at its last byte; and a
tail the reader accepts is exactly what the writer writes for what it read, since every width
must be minimal and the distinct form is refused for equal timestamps. So the reader accepts
one encoding of each state and no other bytes. -/
namespace Lix.NodeCodec
open LexCompare ExceptSpec ListWindow

/-! ## Minimal widths -/

section Widths

theorem pow_256 (width : ℕ) : (256 : ℕ) ^ width = 2 ^ (8 * width) := by
  rw [Nat.pow_mul]

theorem minimalTimestampWidth_le {value : ℕ} (h : value < 2 ^ 64) : minimalTimestampWidth value ≤ 8 := by
  unfold minimalTimestampWidth
  split
  · omega
  · have := Nat.size_le.mpr h
    omega

/-- A value fits in its minimal width. -/
theorem lt_pow_minimalTimestampWidth (value : ℕ) : value < 256 ^ minimalTimestampWidth value := by
  unfold minimalTimestampWidth
  split
  · simp_all
  · rw [pow_256]
    exact Nat.size_le.mp (by omega)

/-- The top byte of a minimal width is not zero. -/
theorem pow_le_of_minimalTimestampWidth {value : ℕ} (h : value ≠ 0) :
    256 ^ (minimalTimestampWidth value - 1) ≤ value := by
  unfold minimalTimestampWidth
  rw [if_neg h, pow_256]
  have hsize : 0 < Nat.size value := Nat.size_pos.mpr (Nat.pos_of_ne_zero h)
  exact Nat.lt_size.mp (by omega)

/-- The only width in which a value fits with a non-zero top byte is its minimal width. -/
theorem minimalTimestampWidth_eq {value width : ℕ} (hlt : value < 256 ^ width)
    (hle : 0 < width → 256 ^ (width - 1) ≤ value) : minimalTimestampWidth value = width := by
  unfold minimalTimestampWidth
  split
  · rename_i hzero
    subst hzero
    by_contra hwidth
    have := hle (by omega)
    have : 0 < 256 ^ (width - 1) := by positivity
    omega
  · rename_i hvalue
    have hpos : 0 < width := by
      by_contra hzero
      rw [show width = 0 by omega, pow_zero] at hlt
      omega
    rw [pow_256] at hlt
    have hlow := hle hpos
    rw [pow_256] at hlow
    have hsize_le := Nat.size_le.mpr hlt
    have hsize_gt : 8 * (width - 1) < Nat.size value := Nat.lt_size.mpr hlow
    omega

/-- A value of at most eight bytes fits a `u64`. -/
theorem lt_two_pow_64_of_width {value width : ℕ} (hvalue : value < 256 ^ width) (hwidth : width ≤ 8) :
    value < 2 ^ 64 :=
  calc value < 256 ^ width := hvalue
    _ ≤ 256 ^ 8 := Nat.pow_le_pow_right (by norm_num) hwidth
    _ = 2 ^ 64 := by norm_num

end Widths

/-! ## Little-endian bytes -/

section LittleEndian

theorem take_u64ToLeBytes {width : ℕ} (hwidth : width ≤ 8) (value : ℕ) :
    (u64ToLeBytes value).take width = (beBytes width value).reverse := by
  have hsplit : beBytes 8 value = beBytes (8 - width) (value / 256 ^ width) ++ beBytes width value := by
    rw [← beBytes_add, Nat.sub_add_cancel hwidth]
  rw [u64ToLeBytes, hsplit, List.reverse_append]
  simp

/-- The bytes read into the low end of eight zero bytes. -/
theorem u64FromLeBytes_padded (bytes : List UInt8) (width : ℕ) :
    u64FromLeBytes (bytes ++ List.replicate (8 - width) 0) = fromBeBytes bytes.reverse := by
  rw [u64FromLeBytes, List.reverse_append, List.reverse_replicate, fromBeBytes_replicate_append]

end LittleEndian

/-! ## Reading the pieces -/

section Pieces

variable {usizeBits : ℕ} {context : String}

/-- A timestamp written in its minimal width reads back. -/
theorem readMinimalLeTimestamp_eq {bytes rest : List UInt8} {offset value : ℕ}
    (hvalue : value < 2 ^ 64)
    (hbytes : bytes.drop offset = (u64ToLeBytes value).take (minimalTimestampWidth value) ++ rest)
    (hoffset : offset ≤ bytes.length) (hfits : bytes.length < 2 ^ usizeBits) :
    readMinimalLeTimestamp usizeBits bytes offset (minimalTimestampWidth value) context =
      .ok (value, offset + minimalTimestampWidth value) := by
  have hwidth := minimalTimestampWidth_le hvalue
  rw [take_u64ToLeBytes hwidth] at hbytes
  have hlen := congrArg List.length hbytes
  simp only [List.length_drop, List.length_append, List.length_reverse, length_beBytes] at hlen
  have hencoded : (bytes.drop offset).take (minimalTimestampWidth value) =
      (beBytes (minimalTimestampWidth value) value).reverse := by
    rw [hbytes, List.take_left' (by simp)]
  have hminimal : ¬(0 < minimalTimestampWidth value ∧
      (beBytes (minimalTimestampWidth value) value).reverse[minimalTimestampWidth value - 1]? =
        some 0) := by
    rintro ⟨hpos, htop⟩
    obtain ⟨width, hw⟩ : ∃ width, minimalTimestampWidth value = width + 1 := ⟨_, (Nat.succ_pred_eq_of_pos hpos).symm⟩
    have hnonzero : value ≠ 0 := by
      intro hzero
      simp [hzero, minimalTimestampWidth] at hw
    have hlow := pow_le_of_minimalTimestampWidth hnonzero
    have hhigh := lt_pow_minimalTimestampWidth value
    rw [hw] at htop hlow hhigh
    rw [beBytes, List.reverse_cons, Nat.add_sub_cancel, List.getElem?_append_right (by simp),
      List.length_reverse, length_beBytes, Nat.sub_self, List.getElem?_cons_zero,
      Option.some_inj] at htop
    have hdigit := congrArg UInt8.toNat htop
    rw [toNat_digit, UInt8.toNat_zero] at hdigit
    have hquot : value / 256 ^ width < 256 := Nat.div_lt_of_lt_mul (by rwa [← Nat.pow_succ])
    rw [Nat.mod_eq_of_lt hquot] at hdigit
    have hpos : 0 < 256 ^ width := by positivity
    have := Nat.div_pos (by simpa using hlow) hpos
    omega
  unfold readMinimalLeTimestamp
  rw [if_neg (by omega), if_neg (by omega), hencoded, if_neg hminimal, u64FromLeBytes_padded,
    List.reverse_reverse, fromBeBytes_beBytes_of_lt (lt_pow_minimalTimestampWidth value)]

/-- A timestamp the reader accepts was written in its minimal width: the bytes it read are the
value's low bytes, the last not zero. -/
theorem readMinimalLeTimestamp_spec {bytes : List UInt8} {offset width value offset' : ℕ}
    (h : readMinimalLeTimestamp usizeBits bytes offset width context = .ok (value, offset')) :
    offset' = offset + width ∧ offset' ≤ bytes.length ∧ value < 256 ^ width ∧
      minimalTimestampWidth value = width ∧
      window bytes offset offset' = (beBytes width value).reverse := by
  unfold readMinimalLeTimestamp at h
  by_cases hover : 2 ^ usizeBits ≤ offset + width
  · rw [if_pos hover] at h
    cases h
  rw [if_neg hover] at h
  by_cases htruncated : bytes.length < offset + width
  · rw [if_pos htruncated] at h
    cases h
  rw [if_neg htruncated] at h
  by_cases hnotminimal : 0 < width ∧ ((bytes.drop offset).take width)[width - 1]? = some 0
  · rw [if_pos hnotminimal] at h
    cases h
  rw [if_neg hnotminimal] at h
  simp only [Except.ok.injEq, Prod.mk.injEq] at h
  obtain ⟨rfl, rfl⟩ := h
  rw [u64FromLeBytes_padded]
  have hlen : ((bytes.drop offset).take width).length = width := by simp; omega
  have hwindow : window bytes offset (offset + width) = (bytes.drop offset).take width := by
    rw [window, List.drop_take, Nat.add_sub_cancel_left]
  have hlt : fromBeBytes ((bytes.drop offset).take width).reverse < 256 ^ width := by
    have := fromBeBytes_lt ((bytes.drop offset).take width).reverse
    rwa [List.length_reverse, hlen] at this
  have hle : 0 < width → 256 ^ (width - 1) ≤ fromBeBytes ((bytes.drop offset).take width).reverse := by
    intro hpos
    rcases List.eq_nil_or_concat' ((bytes.drop offset).take width) with hnil | ⟨init, last, hsnoc⟩
    · rw [hnil] at hlen
      simp at hlen
      omega
    · rw [hsnoc] at hlen hnotminimal ⊢
      simp only [List.length_append, List.length_singleton] at hlen
      have hlast : last ≠ 0 := by
        intro hzero
        apply hnotminimal
        refine ⟨hpos, ?_⟩
        rw [List.getElem?_append_right (by omega), show width - 1 - init.length = 0 by omega,
          List.getElem?_cons_zero, hzero]
      rw [List.reverse_append, List.reverse_singleton, List.singleton_append]
      have := le_fromBeBytes_cons hlast init.reverse
      rwa [List.length_reverse, show init.length = width - 1 by omega] at this
  refine ⟨rfl, by omega, hlt, minimalTimestampWidth_eq hlt hle, ?_⟩
  rw [hwindow]
  have hdigits := beBytes_fromBeBytes ((bytes.drop offset).take width).reverse
  rw [List.length_reverse, hlen] at hdigits
  rw [hdigits, List.reverse_reverse]

/-- The tag keeps the deletion bit apart from a code below 128. -/
theorem tag_fields : ∀ code : UInt8, code.toNat < 128 → ∀ deleted : Bool,
    decide ((code ||| (if deleted then 1 else 0) * valueTailDeleted) &&& valueTailDeleted ≠ 0) = deleted ∧
      (code ||| (if deleted then 1 else 0) * valueTailDeleted) &&& valueTailCodeMask = code := by
  decide +kernel

/-- Every tag is its code with the deletion bit. -/
theorem tag_eq_fields : ∀ tag : UInt8,
    (tag &&& valueTailCodeMask).toNat < 128 ∧
      tag = (tag &&& valueTailCodeMask) |||
        (if decide (tag &&& valueTailDeleted ≠ 0) then 1 else 0) * valueTailDeleted := by
  decide +kernel

/-- The codes of the two forms, for widths of at most eight bytes. -/
theorem tailWidths_codes : ∀ createdWidth updatedWidth : Fin 9,
    tailWidths createdWidth.val.toUInt8 = some (createdWidth.val, 0, true) ∧
      tailWidths (valueTailDistinctMin + createdWidth.val.toUInt8 * valueTimestampWidthCount +
        updatedWidth.val.toUInt8) = some (createdWidth.val, updatedWidth.val, false) ∧
      createdWidth.val.toUInt8.toNat < 128 ∧
      (valueTailDistinctMin + createdWidth.val.toUInt8 * valueTimestampWidthCount +
        updatedWidth.val.toUInt8).toNat < 128 := by
  decide +kernel

theorem tailWidths_valueTailCode {createdAt updatedAt : ℕ} (hcreated : createdAt < 2 ^ 64)
    (hupdated : updatedAt < 2 ^ 64) :
    tailWidths (valueTailCode createdAt updatedAt) =
        some (minimalTimestampWidth createdAt,
          if createdAt = updatedAt then 0 else minimalTimestampWidth updatedAt,
          decide (createdAt = updatedAt)) ∧
      (valueTailCode createdAt updatedAt).toNat < 128 := by
  obtain ⟨hequal, hdistinct, hequal_lt, hdistinct_lt⟩ :=
    tailWidths_codes ⟨_, Nat.lt_succ_of_le (minimalTimestampWidth_le hcreated)⟩
      ⟨_, Nat.lt_succ_of_le (minimalTimestampWidth_le hupdated)⟩
  unfold valueTailCode
  by_cases heq : createdAt = updatedAt
  · rw [if_pos heq, if_pos heq, decide_eq_true heq]
    exact ⟨hequal, hequal_lt⟩
  · rw [if_neg heq, if_neg heq, decide_eq_false heq]
    exact ⟨hdistinct, hdistinct_lt⟩

/-- Every code the reader accepts is the writer's code for the widths it declares. -/
theorem tailWidths_spec : ∀ code : UInt8, ∀ widths ∈ tailWidths code,
    widths.1 ≤ 8 ∧ widths.2.1 ≤ 8 ∧ (widths.2.2 = true → widths.2.1 = 0) ∧
      code = if widths.2.2 then widths.1.toUInt8
        else valueTailDistinctMin + widths.1.toUInt8 * valueTimestampWidthCount +
          widths.2.1.toUInt8 := by
  decide +kernel

end Pieces

/-! ## The tail -/

section Tail

variable {usizeBits : ℕ} {context : String}

theorem length_take_u64ToLeBytes {value : ℕ} (h : value < 2 ^ 64) :
    ((u64ToLeBytes value).take (minimalTimestampWidth value)).length = minimalTimestampWidth value := by
  rw [take_u64ToLeBytes (minimalTimestampWidth_le h)]
  simp

theorem length_writeValueTail (deleted : Bool) {createdAt updatedAt : ℕ} (hcreated : createdAt < 2 ^ 64)
    (hupdated : updatedAt < 2 ^ 64) :
    (writeValueTail deleted createdAt updatedAt).length =
      1 + minimalTimestampWidth createdAt +
        if createdAt = updatedAt then 0 else minimalTimestampWidth updatedAt := by
  unfold writeValueTail
  by_cases heq : createdAt = updatedAt
  · simp [heq, length_take_u64ToLeBytes hupdated]
    omega
  · simp [heq, length_take_u64ToLeBytes hcreated, length_take_u64ToLeBytes hupdated]
    omega

/-- A state tail reads back from wherever the writer put it, and the reader stops at its last
byte. -/
theorem readValueTailFields_writeValueTail {bytes rest : List UInt8} {offset : ℕ} {deleted : Bool}
    {createdAt updatedAt : ℕ} (hcreated : createdAt < 2 ^ 64) (hupdated : updatedAt < 2 ^ 64)
    (hbytes : bytes.drop offset = writeValueTail deleted createdAt updatedAt ++ rest)
    (hfits : bytes.length < 2 ^ usizeBits) :
    readValueTailFields usizeBits bytes offset context =
      .ok ((deleted, createdAt, updatedAt),
        offset + (writeValueTail deleted createdAt updatedAt).length) := by
  obtain ⟨hwidths, hcode⟩ := tailWidths_valueTailCode hcreated hupdated
  obtain ⟨hdeleted, hcodebits⟩ := tag_fields _ hcode deleted
  have hlength := length_writeValueTail deleted hcreated hupdated
  have hend := congrArg List.length hbytes
  rw [List.length_drop, List.length_append, hlength] at hend
  unfold writeValueTail at hbytes
  have htag : bytes[offset]? =
      some (valueTailCode createdAt updatedAt ||| (if deleted then 1 else 0) * valueTailDeleted) := by
    rw [← Nat.add_zero offset, ← List.getElem?_drop, hbytes]
    rfl
  have hcreatedBytes : bytes.drop (offset + 1) =
      (u64ToLeBytes createdAt).take (minimalTimestampWidth createdAt) ++
        ((if createdAt ≠ updatedAt then
          (u64ToLeBytes updatedAt).take (minimalTimestampWidth updatedAt) else []) ++ rest) := by
    rw [← List.drop_drop, hbytes]
    simp
  rw [readValueTailFields, htag]
  simp only [hdeleted, hcodebits, hwidths]
  rw [readMinimalLeTimestamp_eq hcreated hcreatedBytes (by omega) hfits, hlength]
  by_cases heq : createdAt = updatedAt
  · -- the equal form stops after the created timestamp
    subst heq
    simp only [decide_true, if_true, Bool.not_true, Bool.false_eq_true, false_and, if_false, bind,
      Except.bind, pure, Except.pure]
    congr 2
    omega
  · -- the distinct form reads the updated timestamp next
    have hupdatedBytes : bytes.drop (offset + 1 + minimalTimestampWidth createdAt) =
        (u64ToLeBytes updatedAt).take (minimalTimestampWidth updatedAt) ++ rest := by
      rw [← List.drop_drop, hcreatedBytes, if_pos heq, List.drop_left' (length_take_u64ToLeBytes hcreated)]
    simp only [if_false, heq, bind, Except.bind]
    rw [readMinimalLeTimestamp_eq hupdated hupdatedBytes (by omega) hfits]
    simp only [heq, decide_false, Bool.false_eq_true, if_false, Bool.not_false, and_false,
      pure, Except.pure]
    congr 2
    omega

/-- The writer's tail with the timestamps as their big-endian digits reversed. -/
theorem writeValueTail_eq (deleted : Bool) {createdAt updatedAt : ℕ} (hcreated : createdAt < 2 ^ 64)
    (hupdated : updatedAt < 2 ^ 64) :
    writeValueTail deleted createdAt updatedAt =
      (valueTailCode createdAt updatedAt ||| (if deleted then 1 else 0) * valueTailDeleted) ::
        ((beBytes (minimalTimestampWidth createdAt) createdAt).reverse ++
          if createdAt ≠ updatedAt then (beBytes (minimalTimestampWidth updatedAt) updatedAt).reverse
          else []) := by
  rw [writeValueTail, take_u64ToLeBytes (minimalTimestampWidth_le hcreated),
    take_u64ToLeBytes (minimalTimestampWidth_le hupdated)]

/-- A tail the reader accepts is the writer's tail for what it read: the reader accepts one
encoding of each state. -/
theorem readValueTailFields_spec {bytes : List UInt8} {offset offset' : ℕ} {deleted : Bool}
    {createdAt updatedAt : ℕ}
    (h : readValueTailFields usizeBits bytes offset context =
      .ok ((deleted, createdAt, updatedAt), offset')) :
    createdAt < 2 ^ 64 ∧ updatedAt < 2 ^ 64 ∧ offset' ≤ bytes.length ∧
      window bytes offset offset' = writeValueTail deleted createdAt updatedAt := by
  unfold readValueTailFields at h
  rcases htag : bytes[offset]? with _ | tag
  · rw [htag] at h
    cases h
  rw [htag] at h
  rcases hwidths : tailWidths (tag &&& valueTailCodeMask) with _ | ⟨createdWidth, updatedWidth, equal⟩
  · simp only [hwidths] at h
    cases h
  simp only [hwidths] at h
  obtain ⟨⟨c, o1⟩, h1, h⟩ := bind_eq_ok.mp h
  obtain ⟨hcw, huw, hequal, hcode⟩ := tailWidths_spec _ _ (Option.mem_def.mpr hwidths)
  obtain ⟨rfl, hle1, hlt1, hmw1, hwin1⟩ := readMinimalLeTimestamp_spec h1
  have hc : c < 2 ^ 64 := lt_two_pow_64_of_width hlt1 hcw
  have hhead : ∀ stop, offset + 1 ≤ stop → window bytes offset stop = tag :: window bytes (offset + 1) stop :=
    fun stop hstop => by rw [← window_append_window bytes (Nat.le_succ offset) hstop, window_succ htag]; rfl
  have htagbits := (tag_eq_fields tag).2
  cases equal
  · -- the distinct form: a second timestamp, which must differ from the first
    simp only [Bool.false_eq_true, if_false] at h hcode
    obtain ⟨⟨u, o2⟩, h2, h⟩ := bind_eq_ok.mp h
    obtain ⟨rfl, hle2, hlt2, hmw2, hwin2⟩ := readMinimalLeTimestamp_spec h2
    have hu : u < 2 ^ 64 := lt_two_pow_64_of_width hlt2 huw
    by_cases hcu : c = u
    · simp only [hcu, Bool.not_false, and_self, if_true] at h
      cases h
    simp only [hcu, Bool.not_false, true_and, if_false, pure_eq_ok, Prod.mk.injEq] at h
    obtain ⟨⟨rfl, rfl, rfl⟩, rfl⟩ := h
    refine ⟨hc, hu, hle2, ?_⟩
    rw [hhead _ (by omega), writeValueTail_eq _ hc hu, if_pos hcu]
    congr 1
    · simp only [valueTailCode, if_neg hcu, hmw1, hmw2]
      rw [← hcode]
      exact htagbits
    · rw [← window_append_window bytes (Nat.le_add_right _ createdWidth) (Nat.le_add_right _ updatedWidth),
        hwin1, hwin2, hmw1, hmw2]
  · -- the equal form stops after the one timestamp
    simp only [if_true] at hcode
    simp only [if_true, Bool.not_true, Bool.false_eq_true, false_and, if_false, pure_bind, pure_eq_ok,
      Prod.mk.injEq] at h
    obtain ⟨⟨rfl, rfl, rfl⟩, rfl⟩ := h
    refine ⟨hc, hc, hle1, ?_⟩
    rw [hhead _ (by omega), writeValueTail_eq _ hc hc, if_neg (not_not_intro rfl), List.append_nil]
    congr 1
    · simp only [valueTailCode, if_true, hmw1]
      rw [← hcode]
      exact htagbits
    · rw [hwin1, hmw1]

/-- A state tail as the writer writes it, for some deletion bit and two `u64` timestamps. -/
def IsValueTail (tail : List UInt8) : Prop :=
  ∃ (deleted : Bool) (createdAt updatedAt : UInt64),
    tail = writeValueTail deleted createdAt.toNat updatedAt.toNat

theorem writeValueTail_ne_nil (deleted : Bool) (createdAt updatedAt : ℕ) :
    writeValueTail deleted createdAt updatedAt ≠ [] :=
  List.cons_ne_nil _ _

theorem readValueTail_writeValueTail {bytes rest : List UInt8} {offset : ℕ} {deleted : Bool}
    {createdAt updatedAt : ℕ} (hcreated : createdAt < 2 ^ 64) (hupdated : updatedAt < 2 ^ 64)
    (hbytes : bytes.drop offset = writeValueTail deleted createdAt updatedAt ++ rest)
    (hfits : bytes.length < 2 ^ usizeBits) :
    readValueTail usizeBits bytes offset context =
      .ok (writeValueTail deleted createdAt updatedAt,
        offset + (writeValueTail deleted createdAt updatedAt).length) := by
  rw [readValueTail, readValueTailFields_writeValueTail hcreated hupdated hbytes hfits]
  simp only [bind, Except.bind, pure, Except.pure, window_of_drop_eq hbytes]

/-- The bytes of a tail the reader accepts form a tail as the writer writes it, and the reader
moves past exactly those bytes. -/
theorem readValueTail_spec {bytes tail : List UInt8} {offset offset' : ℕ}
    (h : readValueTail usizeBits bytes offset context = .ok (tail, offset')) :
    IsValueTail tail ∧ offset' = offset + tail.length ∧ offset' ≤ bytes.length := by
  obtain ⟨⟨⟨deleted, createdAt, updatedAt⟩, tailEnd⟩, hfields, h⟩ := bind_eq_ok.mp h
  simp only [pure, Except.pure, Except.ok.injEq, Prod.mk.injEq] at h
  obtain ⟨rfl, rfl⟩ := h
  obtain ⟨hcreated, hupdated, hle, hwindow⟩ := readValueTailFields_spec hfields
  have hlength : (window bytes offset tailEnd).length = tailEnd - offset := by
    rw [length_window]
    omega
  have hpos : 0 < (window bytes offset tailEnd).length := by
    rw [hwindow]
    exact List.length_pos_of_ne_nil (writeValueTail_ne_nil _ _ _)
  refine ⟨⟨deleted, UInt64.ofNat createdAt, UInt64.ofNat updatedAt, ?_⟩, by omega, hle⟩
  rw [hwindow, UInt64.toNat_ofNat_of_lt' hcreated, UInt64.toNat_ofNat_of_lt' hupdated]

/-- The tail reader accepts exactly the writer's tails: at any offset it reads a deletion bit
and two timestamps, and stops where it stops, just when the bytes between are what the writer
writes for them. -/
theorem readValueTailFields_eq_ok_iff {bytes : List UInt8} {offset offset' : ℕ} {deleted : Bool}
    {createdAt updatedAt : ℕ} (hfits : bytes.length < 2 ^ usizeBits) :
    readValueTailFields usizeBits bytes offset context =
        .ok ((deleted, createdAt, updatedAt), offset') ↔
      createdAt < 2 ^ 64 ∧ updatedAt < 2 ^ 64 ∧
        offset' = offset + (writeValueTail deleted createdAt updatedAt).length ∧
        window bytes offset offset' = writeValueTail deleted createdAt updatedAt := by
  constructor
  · intro h
    obtain ⟨hcreated, hupdated, hle, hwindow⟩ := readValueTailFields_spec h
    have hlength := congrArg List.length hwindow
    have hpos := List.length_pos_of_ne_nil (writeValueTail_ne_nil deleted createdAt updatedAt)
    rw [length_window] at hlength
    exact ⟨hcreated, hupdated, by omega, hwindow⟩
  · rintro ⟨hcreated, hupdated, hend, hwindow⟩
    have hle : offset' ≤ bytes.length := by
      have hlength := congrArg List.length hwindow
      have hpos := List.length_pos_of_ne_nil (writeValueTail_ne_nil deleted createdAt updatedAt)
      rw [length_window] at hlength
      omega
    have hbytes : bytes.drop offset =
        writeValueTail deleted createdAt updatedAt ++ bytes.drop offset' := by
      rw [drop_eq_window_append_drop bytes (show offset ≤ offset' by omega), hwindow]
    rw [readValueTailFields_writeValueTail hcreated hupdated hbytes hfits, ← hend]

theorem readValueTailFields_eq_ok_iff_sample :
    readValueTailFields 32 (writeValueTail true 300 70000 ++ [9]) 0 "tracked-state value" =
      .ok ((true, 300, 70000), 6) :=
  (readValueTailFields_eq_ok_iff (by decide +kernel)).mpr
    ⟨by norm_num, by norm_num, by decide +kernel, by decide +kernel⟩

end Tail

end Lix.NodeCodec
