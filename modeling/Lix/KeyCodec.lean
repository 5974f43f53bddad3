import Lix.LexCompare
import Lix.ExceptSpec

/-! The order-preserving tracked-state key format of `order_preserving_key.rs` and the
key half of `tracked_state/codec.rs`: the typed key with its derived order, the
writers, the shared part scanner and the key decoders. A Rust `str` is ordered by
its UTF-8 bytes, so string fields are compared through `utf8`. -/
namespace Lix.KeyCodec
open LexCompare ExceptSpec

def keyEscape : UInt8 := 0xff
def keyPartFinal : UInt8 := 0x00
def keyPartMore : UInt8 := 0x01
def fileIdNone : UInt8 := 0x00
def fileIdSome : UInt8 := 0x01
def rowPkCodecV1 : UInt8 := 0x01
def rowPkUuid : UInt8 := 0x00
def rowPkInteger : UInt8 := 0x01
def rowPkString : UInt8 := 0x02
def rowPkBytes : UInt8 := 0x03
def rowPkUuidBytes : ℕ := 16
def rowPkIntegerBytes : ℕ := 8

/-- The bytes `str::as_bytes` exposes; `Ord for str` compares these. -/
def utf8 (s : String) : List UInt8 := s.toUTF8.data.toList

inductive RowPkComponent where
  | uuid (bytes : Vector UInt8 16)
  | integer (value : Int64)
  | string (value : String)
  | bytes (value : List UInt8)
  deriving DecidableEq, Repr

namespace RowPkComponent

/-- Declaration order of the variants, which the derived `Ord` compares first. -/
def variant : RowPkComponent → ℕ
  | uuid _ => 0
  | integer _ => 1
  | string _ => 2
  | bytes _ => 3

/-- `#[derive(Ord)]` on `RowPkComponent`. -/
def cmp : RowPkComponent → RowPkComponent → Ordering
  | uuid a, uuid b => compare a b
  | integer a, integer b => compare a b
  | string a, string b => compare (utf8 a) (utf8 b)
  | bytes a, bytes b => compare a b
  | a, b => compare a.variant b.variant

instance : Ord RowPkComponent := ⟨cmp⟩

end RowPkComponent

/-- `RowPk`, ordered by its component slice. -/
structure RowPk where
  components : List RowPkComponent
  deriving DecidableEq, Repr

instance : Ord RowPk := ⟨fun a b => compare a.components b.components⟩

inductive RowPkError where
  | emptyPrimaryKey
  | invalidPrimaryKeyValue (index : ℕ) (expected : String)
  deriving DecidableEq, Repr

def RowPkError.message : RowPkError → String
  | .emptyPrimaryKey => "primary key must contain at least one path"
  | .invalidPrimaryKeyValue index expected =>
    "primary-key value at index " ++ toString index ++ " is not a valid " ++ expected

def nul : Char := Char.ofNat 0

def RowPkComponent.hasNul : RowPkComponent → Bool
  | .string value => value.contains nul
  | _ => false

/-- `RowPk::from_components`: non-empty, and no string component holds a NUL. -/
def RowPk.fromComponents (components : List RowPkComponent) : Except RowPkError RowPk :=
  if components.isEmpty then .error .emptyPrimaryKey
  else match components.findIdx? RowPkComponent.hasNul with
    | some index => .error (.invalidPrimaryKeyValue index "text without Unicode NUL")
    | none => .ok ⟨components⟩

/-- The row primary keys `RowPk::from_components` accepts. -/
def RowPk.Valid (pk : RowPk) : Prop :=
  pk.components ≠ [] ∧ ∀ c ∈ pk.components, c.hasNul = false

structure TrackedStateKey where
  schemaKey : String
  fileId : Option String
  rowPk : RowPk
  deriving DecidableEq, Repr

/-- `#[derive(Ord)]` on `TrackedStateKey`: schema key, then file id, then row key. -/
instance : Ord TrackedStateKey where
  compare a b := (compare (utf8 a.schemaKey) (utf8 b.schemaKey)).then
    ((compare (a.fileId.map utf8) (b.fileId.map utf8)).then (compare a.rowPk b.rowPk))

/-! ## Writers -/

/-- `ordered_integer_from_i64`: the two's-complement bits with the sign bit flipped. -/
def orderedIntegerFromI64 (value : Int64) : UInt64 :=
  value.toUInt64 ^^^ ((1 : UInt64) <<< 63)

def i64FromOrderedInteger (ordered : UInt64) : Int64 :=
  (ordered ^^^ ((1 : UInt64) <<< 63)).toInt64

/-- `u64::to_be_bytes`. -/
def toBeBytes (value : UInt64) : List UInt8 := beBytes 8 value.toNat

/-- `u64::from_be_bytes` on an eight-byte slice. -/
def u64FromBeBytes (bytes : List UInt8) : UInt64 := UInt64.ofNat (fromBeBytes bytes)

/-- One byte of `write_key_bytes`: a NUL is written as `00 ff`. -/
def escapeByte (byte : UInt8) : List UInt8 :=
  if byte = keyPartFinal then [keyPartFinal, keyEscape] else [byte]

def writeKeyBytes (out : List UInt8) (value : List UInt8) (terminator : UInt8) : List UInt8 :=
  out ++ value.flatMap escapeByte ++ [keyPartFinal, terminator]

def writeKeyString (out : List UInt8) (value : String) (terminator : UInt8) : List UInt8 :=
  writeKeyBytes out (utf8 value) terminator

def writeFileId (out : List UInt8) : Option String → List UInt8
  | none => out ++ [fileIdNone]
  | some fileId => writeKeyString (out ++ [fileIdSome]) fileId keyPartFinal

/-- The match arm of `write_row_pk` for one component and its terminator. -/
def writeRowPkComponent (out : List UInt8) (component : RowPkComponent)
    (terminator : UInt8) : List UInt8 :=
  match component with
  | .uuid bytes => out ++ [rowPkUuid] ++ bytes.toList ++ [terminator]
  | .integer value =>
    out ++ [rowPkInteger] ++ toBeBytes (orderedIntegerFromI64 value) ++ [terminator]
  | .string value => writeKeyBytes (out ++ [rowPkString]) (utf8 value) terminator
  | .bytes value => writeKeyBytes (out ++ [rowPkBytes]) value terminator

/-- The component loop of `write_row_pk`: the last component ends with
`KEY_PART_FINAL` (its `index + 1 == len`), every other one with `KEY_PART_MORE`. -/
def writeRowPkComponents (out : List UInt8) : List RowPkComponent → List UInt8
  | [] => out
  | [component] => writeRowPkComponent out component keyPartFinal
  | component :: rest@(_ :: _) =>
    writeRowPkComponents (writeRowPkComponent out component keyPartMore) rest

def writeRowPk (out : List UInt8) (rowPk : RowPk) : List UInt8 :=
  writeRowPkComponents (out ++ [rowPkCodecV1]) rowPk.components

def encodeKeyParts (schemaKey : String) (fileId : Option String) (rowPk : RowPk) :
    List UInt8 :=
  writeRowPk (writeFileId (writeKeyString [] schemaKey keyPartFinal) fileId) rowPk

def encodeKey (key : TrackedStateKey) : List UInt8 :=
  encodeKeyParts key.schemaKey key.fileId key.rowPk

def encodeSchemaKeyPrefix (schemaKey : String) : List UInt8 :=
  writeKeyString [] schemaKey keyPartFinal

def encodeSchemaFilePrefix (schemaKey : String) (fileId : Option String) : List UInt8 :=
  writeFileId (writeKeyString [] schemaKey keyPartFinal) fileId

/-! ## Decoders -/

structure LixError where
  code : String
  message : String
  deriving DecidableEq, Repr

def keyCodecError (message : String) : LixError :=
  ⟨"LIX_ERROR_UNKNOWN", "tracked-state key " ++ message⟩

inductive KeyPartError where
  | truncated
  | escapeTruncated
  | unknownEscape (byte : UInt8)
  deriving DecidableEq, Repr

def isKeyPartTerminator (byte : UInt8) : Bool := byte == keyPartFinal || byte == keyPartMore

/-- The part grammar read from the front of `tail`: the unescaped value, the
terminator and the number of bytes the part spans. This is the loop of
`scan_key_part` together with its escaped tail `scan_key_part_escaped`; whether the
value comes back as a span of the input or as a copy is ownership, not content. -/
def scanKeyPartTail : List UInt8 → Except KeyPartError (List UInt8 × UInt8 × ℕ)
  | [] => .error .truncated
  | byte :: rest =>
    if byte ≠ keyPartFinal then
      (scanKeyPartTail rest).map fun (value, terminator, length) =>
        (byte :: value, terminator, length + 1)
    else match rest with
      | [] => .error .escapeTruncated
      | escape :: rest =>
        if isKeyPartTerminator escape then .ok ([], escape, 2)
        else if escape ≠ keyEscape then .error (.unknownEscape escape)
        else (scanKeyPartTail rest).map fun (value, terminator, length) =>
          (keyPartFinal :: value, terminator, length + 2)

structure ScannedKeyPart where
  value : List UInt8
  terminator : UInt8
  /-- Offset just past the terminator (`end` in the source). -/
  endOffset : ℕ
  deriving DecidableEq, Repr

def scanKeyPart (bytes : List UInt8) (start : ℕ) : Except KeyPartError ScannedKeyPart :=
  if start ≤ bytes.length then
    (scanKeyPartTail (bytes.drop start)).map fun (value, terminator, length) =>
      ⟨value, terminator, start + length⟩
  else .error .truncated

def treeKeyPartError (error : KeyPartError) (field : String) : LixError :=
  match error with
  | .truncated => keyCodecError (field ++ " is truncated")
  | .escapeTruncated => keyCodecError (field ++ " escape is truncated")
  | .unknownEscape other => keyCodecError (field ++ " has unknown escape " ++ toString other)

def readKeyBytesCow (bytes : List UInt8) (offset : ℕ) (field : String) :
    Except LixError (List UInt8 × UInt8 × ℕ) :=
  match scanKeyPart bytes offset with
  | .error error => .error (treeKeyPartError error field)
  | .ok part => .ok (part.value, part.terminator, part.endOffset)

def readKeyStringCow (bytes : List UInt8) (offset : ℕ) (field : String) :
    Except LixError (String × UInt8 × ℕ) :=
  match readKeyBytesCow bytes offset field with
  | .error error => .error error
  | .ok (value, terminator, offset) =>
    match String.fromUTF8? ⟨value.toArray⟩ with
    | some value => .ok (value, terminator, offset)
    | none => .error (keyCodecError (field ++ " is not UTF-8"))

/-- `read_key_bytes`: the owned copy of `read_key_bytes_cow`. -/
def readKeyBytes (bytes : List UInt8) (offset : ℕ) (field : String) :
    Except LixError (List UInt8 × UInt8 × ℕ) :=
  readKeyBytesCow bytes offset field

/-- `read_key_string`: the owned copy of `read_key_string_cow`. -/
def readKeyString (bytes : List UInt8) (offset : ℕ) (field : String) :
    Except LixError (String × UInt8 × ℕ) :=
  readKeyStringCow bytes offset field

def readFileIdCow (bytes : List UInt8) (offset : ℕ) : Except LixError (Option String × ℕ) :=
  match bytes[offset]? with
  | none => .error (keyCodecError "file id tag is truncated")
  | some tag =>
    if tag = fileIdNone then .ok (none, offset + 1)
    else if tag = fileIdSome then
      match readKeyStringCow bytes (offset + 1) "file id" with
      | .error error => .error error
      | .ok (fileId, terminator, offset) =>
        if terminator ≠ keyPartFinal then .error (keyCodecError "file id has an invalid terminator")
        else .ok (some fileId, offset)
    else .error (keyCodecError ("file id has unknown tag " ++ toString tag))

/-- The UUID and integer arms of `read_row_pk_part`: `width` raw bytes and a
terminator that must be one of the two part terminators. -/
def readFixedWidthPart (bytes : List UInt8) (offset width : ℕ) (kind : String) :
    Except LixError ({ slice : List UInt8 // slice.length = width } × UInt8 × ℕ) :=
  if h : offset + width ≤ bytes.length then
    match bytes[offset + width]? with
    | none => .error (keyCodecError (kind ++ " row primary-key ending is truncated"))
    | some terminator =>
      if isKeyPartTerminator terminator then
        .ok (⟨(bytes.drop offset).take width, by simp; omega⟩, terminator, offset + width + 1)
      else .error (keyCodecError
        (kind ++ " row primary-key part has invalid terminator " ++ toString terminator))
  else .error (keyCodecError (kind ++ " row primary-key part is truncated"))

def readRowPkPart (bytes : List UInt8) (offset : ℕ) :
    Except LixError (RowPkComponent × UInt8 × ℕ) :=
  match bytes[offset]? with
  | none => .error (keyCodecError "row primary-key part tag is truncated")
  | some tag =>
    if tag = rowPkString then
      (readKeyString bytes (offset + 1) "row primary-key part").map
        fun (value, terminator, offset) => (.string value, terminator, offset)
    else if tag = rowPkBytes then
      (readKeyBytes bytes (offset + 1) "row primary-key bytes").map
        fun (value, terminator, offset) => (.bytes value, terminator, offset)
    else if tag = rowPkUuid then
      (readFixedWidthPart bytes (offset + 1) rowPkUuidBytes "UUIDv7").map
        fun (uuidBytes, terminator, offset) =>
          (.uuid ⟨uuidBytes.1.toArray, by simp [uuidBytes.2, rowPkUuidBytes]⟩, terminator, offset)
    else if tag = rowPkInteger then
      (readFixedWidthPart bytes (offset + 1) rowPkIntegerBytes "integer").map
        fun (ordered, terminator, offset) =>
          (.integer (i64FromOrderedInteger (u64FromBeBytes ordered.1)), terminator, offset)
    else .error (keyCodecError ("row primary-key part has unknown tag " ++ toString tag))

theorem scanKeyPartTail_length {tail value : List UInt8} {terminator : UInt8} {length : ℕ}
    (h : scanKeyPartTail tail = .ok (value, terminator, length)) : 2 ≤ length := by
  fun_induction scanKeyPartTail tail generalizing value terminator length with
  | case1 => simp at h
  | case2 byte rest hb ih =>
    obtain ⟨⟨v, t, n⟩, hr, he⟩ := map_eq_ok.mp h
    simp only [Prod.mk.injEq] at he
    have := ih hr
    omega
  | case3 => simp at h
  | case4 => simp at h; omega
  | case5 => simp at h
  | case6 byte hb escape rest ht he ih =>
    obtain ⟨⟨v, t, n⟩, _, he⟩ := map_eq_ok.mp h
    simp only [Prod.mk.injEq] at he
    omega

theorem readKeyBytesCow_advance {bytes value : List UInt8} {offset next : ℕ} {field : String}
    {terminator : UInt8} (h : readKeyBytesCow bytes offset field = .ok (value, terminator, next)) :
    offset + 2 ≤ next := by
  unfold readKeyBytesCow at h
  split at h
  · simp at h
  · rename_i part hscan
    simp only [Except.ok.injEq, Prod.mk.injEq] at h
    obtain ⟨-, -, rfl⟩ := h
    unfold scanKeyPart at hscan
    split_ifs at hscan
    obtain ⟨⟨v, t, n⟩, hs, rfl⟩ := map_eq_ok.mp hscan
    have := scanKeyPartTail_length hs
    simp only
    omega

theorem readKeyStringCow_advance {bytes : List UInt8} {offset next : ℕ} {field value : String}
    {terminator : UInt8} (h : readKeyStringCow bytes offset field = .ok (value, terminator, next)) :
    offset + 2 ≤ next := by
  unfold readKeyStringCow at h
  split at h
  · simp at h
  · rename_i v t o hread
    split at h
    · simp only [Except.ok.injEq, Prod.mk.injEq] at h
      obtain ⟨-, -, rfl⟩ := h
      exact readKeyBytesCow_advance hread
    · simp at h

theorem readFixedWidthPart_advance {bytes : List UInt8} {offset width next : ℕ} {kind : String}
    {slice : { slice : List UInt8 // slice.length = width }} {terminator : UInt8}
    (h : readFixedWidthPart bytes offset width kind = .ok (slice, terminator, next)) :
    next = offset + width + 1 := by
  unfold readFixedWidthPart at h
  split_ifs at h with hw
  split at h
  · simp at h
  · split_ifs at h
    simp only [Except.ok.injEq, Prod.mk.injEq] at h
    exact h.2.2.symm

theorem readRowPkPart_advance {bytes : List UInt8} {offset next : ℕ} {part : RowPkComponent}
    {terminator : UInt8} (h : readRowPkPart bytes offset = .ok (part, terminator, next)) :
    offset < next := by
  unfold readRowPkPart at h
  split at h
  · simp at h
  · split_ifs at h
    · obtain ⟨⟨v, t, o⟩, hr, he⟩ := map_eq_ok.mp h
      simp only [Prod.mk.injEq] at he
      have := readKeyStringCow_advance hr
      omega
    · obtain ⟨⟨v, t, o⟩, hr, he⟩ := map_eq_ok.mp h
      simp only [Prod.mk.injEq] at he
      have := readKeyBytesCow_advance hr
      omega
    · obtain ⟨⟨v, t, o⟩, hr, he⟩ := map_eq_ok.mp h
      simp only [Prod.mk.injEq] at he
      have := readFixedWidthPart_advance hr
      omega
    · obtain ⟨⟨v, t, o⟩, hr, he⟩ := map_eq_ok.mp h
      simp only [Prod.mk.injEq] at he
      have := readFixedWidthPart_advance hr
      omega

/-- The `loop` of `read_row_pk` after its first part: parts are read until one ends
with `KEY_PART_FINAL`. A part only ever ends with one of the two terminators, so the
source's `unreachable!` arm is dead and the model lets any other byte continue. -/
def readRowPkLoop (bytes : List UInt8) (offset : ℕ) (components : List RowPkComponent) :
    Except LixError (List RowPkComponent × ℕ) :=
  if bytes.length ≤ offset then .error (keyCodecError "row primary key is empty or truncated")
  else
    match _hpart : readRowPkPart bytes offset with
    | .error error => .error error
    | .ok (part, terminator, next) =>
      if terminator = keyPartFinal then .ok (components ++ [part], next)
      else readRowPkLoop bytes next (components ++ [part])
termination_by bytes.length - offset
decreasing_by
  have := readRowPkPart_advance (by assumption)
  omega

def readRowPk (bytes : List UInt8) (offset : ℕ) : Except LixError (RowPk × ℕ) :=
  match bytes[offset]? with
  | none => .error (keyCodecError "row primary key is empty or truncated")
  | some version =>
    if version ≠ rowPkCodecV1 then
      .error (keyCodecError ("row primary key has unsupported codec version " ++ toString version))
    else if bytes.length ≤ offset + 1 then
      .error (keyCodecError "row primary key is empty or truncated")
    else match readRowPkPart bytes (offset + 1) with
      | .error error => .error error
      | .ok (first, terminator, next) =>
        if terminator = keyPartFinal then
          match RowPk.fromComponents [first] with
          | .ok rowPk => .ok (rowPk, next)
          | .error error => .error (keyCodecError error.message)
        else match readRowPkLoop bytes next [first] with
          | .error error => .error error
          | .ok (components, next) =>
            match RowPk.fromComponents components with
            | .ok rowPk => .ok (rowPk, next)
            | .error error => .error (keyCodecError
                ("row primary key decoded from storage is invalid: " ++ error.message))

/-- `decode_key_borrowed`. Borrowed (`Cow`) and owned strings carry the same bytes. -/
def decodeKeyBorrowed (bytes : List UInt8) : Except LixError TrackedStateKey :=
  match readKeyStringCow bytes 0 "schema key" with
  | .error error => .error error
  | .ok (schemaKey, schemaTerminator, offset) =>
    if schemaTerminator ≠ keyPartFinal then
      .error (keyCodecError "schema key has an invalid terminator")
    else match readFileIdCow bytes offset with
      | .error error => .error error
      | .ok (fileId, offset) =>
        match readRowPk bytes offset with
        | .error error => .error error
        | .ok (rowPk, offset) =>
          if offset ≠ bytes.length then .error (keyCodecError "has trailing bytes")
          else .ok ⟨schemaKey, fileId, rowPk⟩

/-- `decode_key`: the borrowed decode, converted into owned strings. -/
def decodeKey (bytes : List UInt8) : Except LixError TrackedStateKey :=
  decodeKeyBorrowed bytes

/-- `decode_key_shared`: the same reads and checks over a refcounted buffer; the shared
readers differ from the borrowed ones only in who owns the decoded slices. -/
def decodeKeyShared (bytes : List UInt8) : Except LixError TrackedStateKey :=
  decodeKeyBorrowed bytes

end Lix.KeyCodec
