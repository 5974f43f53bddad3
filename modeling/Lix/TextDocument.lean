import Lix.TextOrderKey
import Lix.TrackedStateDiff

/-! The text plugin's document (`plugins/text/src/core.rs`): the file bytes and one durable row
per LF-terminated segment, each with a UUID and an order key. This module has the row types,
the line rows' typed form, the constructors `open_file`, `open_file_with_identities`,
`open_rows_fallible` and `from_lines`, and `rows_changed` with its byte edits.

A line's bytes are a range of a shared buffer in the source; here they are the bytes the range
holds, which is what line equality compares. Lengths and offsets are `ℕ`: the overflow checks on
`usize` sums of in-memory lengths cannot fail and are left out, and so are the fallible `Result`
wrappers of functions that fail only there (`render_lines`, `typed_row`, `upsert_change`,
`renderer_edits_to`). -/
namespace Lix.Text
open KeyCodec

/-- A UUID, ordered by its sixteen bytes. -/
structure Uuid where
  bytes : Vector UInt8 16
  deriving DecidableEq, Repr

namespace Uuid

instance : Ord Uuid := ⟨fun a b => compare a.bytes b.bytes⟩

instance : Std.TransOrd Uuid where
  eq_swap := Std.OrientedOrd.eq_swap (α := Vector UInt8 16)
  isLE_trans := Std.TransOrd.isLE_trans (α := Vector UInt8 16)

instance : Std.LawfulEqOrd Uuid where
  eq_of_compare {a b} h := by
    cases a
    cases b
    congr
    exact Std.LawfulEqOrd.eq_of_compare (α := Vector UInt8 16) h

/-- The hyphenated form `Display` prints. -/
def toString (id : Uuid) : String := TrackedState.uuidText id.bytes

end Uuid

/-- `lix_schema::Value`, without `Float8` and `Jsonb`: the plugin reads a value only to match a
UUID or a text, and a float or JSON value fails those matches like any other. -/
inductive TypedValue where
  | null
  | text (value : String)
  | uuid (value : Uuid)
  | int8 (value : Int64)
  | boolean (value : Bool)
  | timestamptz (value : Int64)
  deriving DecidableEq, Repr

/-- `lix_schema::Row`: columns in strictly increasing name order. -/
structure TypedRow where
  entries : List (String × TypedValue)
  sorted : (entries.map Prod.fst).Pairwise (· < ·)
  deriving DecidableEq

namespace TypedRow

def keys (row : TypedRow) : List String := row.entries.map Prod.fst

def get (row : TypedRow) (name : String) : Option TypedValue := row.entries.lookup name

end TypedRow

inductive ChangeEffect where
  | content
  | formatOnly
  deriving DecidableEq, Repr

structure RowChange where
  schemaKey : String
  rowPk : List TypedValue
  row : Option TypedRow
  effect : ChangeEffect
  deriving DecidableEq

def RowChange.upsert (schemaKey : String) (rowPk : List TypedValue) (row : TypedRow) : RowChange :=
  ⟨schemaKey, rowPk, some row, .content⟩

def RowChange.delete (schemaKey : String) (rowPk : List TypedValue) : RowChange :=
  ⟨schemaKey, rowPk, none, .content⟩

structure RowRecord where
  schemaKey : String
  rowPk : List TypedValue
  row : TypedRow
  deriving DecidableEq

/-- A replacement at a base-relative offset, as the host applies it. -/
structure ByteEdit where
  offset : ℕ
  deleteLen : ℕ
  insert : List UInt8
  deriving DecidableEq, Repr

/-- One verified base-relative splice received from the host. -/
structure FileEdit where
  offset : ℕ
  deleteLen : ℕ
  insert : List UInt8
  deriving DecidableEq, Repr

def lineSchemaKey : String := "text_line"
def textPrefixScanBytes : ℕ := 8000
/-- `b'\n'`. -/
def lf : UInt8 := 10

structure Line where
  id : Uuid
  orderKey : OrderKey
  bytes : List UInt8
  deriving DecidableEq

structure Document where
  bytes : List UInt8
  lines : List Line
  deriving DecidableEq

structure LineIdentity where
  id : Uuid
  orderKey : String
  deriving DecidableEq

section Bytes

/-- The segments of `split_lines` from a segment begun with `current`: a segment ends just
after each LF, and what is left after the last LF is one more segment. -/
def splitLinesFrom (current : List UInt8) : List UInt8 → List (List UInt8)
  | [] => if current = [] then [] else [current]
  | byte :: rest =>
    if byte = lf then (current ++ [byte]) :: splitLinesFrom [] rest
    else splitLinesFrom (current ++ [byte]) rest

def splitLines (bytes : List UInt8) : List (List UInt8) := splitLinesFrom [] bytes

def validateLineBytes (bytes : List UInt8) : Except String Unit :=
  if bytes = [] then .error "line rows must contain at least one byte"
  else if lf ∈ bytes.dropLast then
    .error "one Text line may contain one trailing LF but no embedded LF bytes"
  else .ok ()

def validateText (bytes : List UInt8) : Except String Unit :=
  if 0 ∈ bytes.take textPrefixScanBytes then
    .error "Text documents cannot contain NUL in their first 8 KiB"
  else .ok ()

def renderLines (lines : List Line) : List UInt8 := lines.flatMap Line.bytes

def validateRowKey (schemaKey : String) (rowPk : List TypedValue) : Except String Unit :=
  if schemaKey ≠ lineSchemaKey then
    .error ("Text plugin only accepts schema '" ++ lineSchemaKey ++ "', got '" ++ schemaKey ++ "'")
  else
    match rowPk with
    | [.uuid _] => .ok ()
    | _ => .error "Text line rows need exactly one UUID primary-key component"

end Bytes

section Rows

/-- The `base64` crate's `URL_SAFE_NO_PAD` engine, which the plugin does not implement but calls:
the text `encode` writes, and what `decode` reads back or the text of its error. The plugin
relies on one fact of it, that `decode` reads back what `encode` wrote. -/
structure Base64Engine where
  encode : List UInt8 → String
  decode : String → Except String (List UInt8)
  decode_encode : ∀ bytes, decode (encode bytes) = .ok bytes

variable (base64 : Base64Engine)

def lineColumns : List String := ["content_base64", "id", "order_key"]

theorem lineColumns_sorted : lineColumns.Pairwise (· < ·) := by decide

namespace Line

def typedRow (line : Line) : TypedRow :=
  ⟨[("content_base64", .text (base64.encode line.bytes)), ("id", .uuid line.id),
    ("order_key", .text line.orderKey.toSnapshotString)], lineColumns_sorted⟩

def fromTypedRow (row : TypedRow) : Except String Line := do
  if let some field := row.keys.find? (· ∉ lineColumns) then
    throw ("line typed row contains unsupported field '" ++ field ++ "'")
  let id ← match row.get "id" with
    | some (.uuid value) => pure value
    | _ => throw "line typed row id must be a UUID"
  let orderKey ← match row.get "order_key" with
    | some (.text value) =>
      (OrderKey.fromSnapshotString value).mapError ("invalid line order key: " ++ ·)
    | _ => throw "line typed row order_key must be text"
  let contentBase64 ← match row.get "content_base64" with
    | some (.text value) => pure value
    | _ => throw "line typed row content_base64 must be text"
  let bytes ← (base64.decode contentBase64).mapError ("invalid line content_base64: " ++ ·)
  validateLineBytes bytes
  pure ⟨id, orderKey, bytes⟩

def upsertChange (line : Line) : RowChange :=
  .upsert lineSchemaKey [.uuid line.id] (line.typedRow base64)

end Line

end Rows

section Construct

variable (base64 : Base64Engine)

/-- The order `from_lines` sorts by: order key, then id. -/
def lineOrder : Line → Line → Ordering := compareLex (compareOn Line.orderKey) (compareOn Line.id)

/-- `sort_by` with `lineOrder`. Every stable sort gives the same list; this one inserts. -/
def sortLines (lines : List Line) : List Line := lines.insertionSort fun a b => (lineOrder a b).isLE

/-- The checks `from_lines` makes line by line, in the given order, before sorting. -/
def checkLines (ids : List Uuid) (orderKeys : List OrderKey) : List Line → Except String Unit
  | [] => pure ()
  | line :: rest => do
    validateLineBytes line.bytes
    if line.id ∈ ids then throw ("duplicate line row ID '" ++ line.id.toString ++ "'")
    if line.orderKey ∈ orderKeys then
      throw ("duplicate line order key '" ++ line.orderKey.toSnapshotString ++ "'")
    checkLines (line.id :: ids) (line.orderKey :: orderKeys) rest

/-- `from_lines`; rebasing each line onto the rendered buffer keeps its bytes. -/
def fromLines (lines : List Line) : Except String Document := do
  checkLines [] [] lines
  let sorted := sortLines lines
  let bytes := renderLines sorted
  validateText bytes
  pure ⟨bytes, sorted⟩

/-- The loop of `open_file`: the segment at each ordinal gets the key and the id of that
ordinal. -/
def numberLines (idForOrdinal : ℕ → Uuid) (chunks : List (List UInt8))
    (orderKeys : List OrderKey) : List Line :=
  (chunks.zip orderKeys).mapIdx fun ordinal chunk => ⟨idForOrdinal ordinal, chunk.2, chunk.1⟩

/-- `open_file`; its second result is what the `AllUpserts` iterator yields. -/
def openFile (bytes : List UInt8) (idForOrdinal : ℕ → Uuid) :
    Except String (Document × List RowChange) := do
  validateText bytes
  let chunks := splitLines bytes
  let orderKeys ← OrderKey.evenlyBetween none none chunks.length
  let document : Document := ⟨bytes, numberLines idForOrdinal chunks orderKeys⟩
  pure (document, document.lines.map (Line.upsertChange base64))

/-- The line of one chunk and its stored identity. -/
def identityLine (chunkIdentity : List UInt8 × LineIdentity) : Except String Line := do
  let orderKey ← (OrderKey.fromSnapshotString chunkIdentity.2.orderKey).mapError
    ("invalid line order key: " ++ ·)
  pure ⟨chunkIdentity.2.id, orderKey, chunkIdentity.1⟩

def openFileWithIdentities (bytes : List UInt8) (identities : List LineIdentity) :
    Except String Document := do
  validateText bytes
  let chunks := splitLines bytes
  if chunks.length ≠ identities.length then
    throw "Text identity state has the wrong line count"
  let lines ← (chunks.zip identities).mapM identityLine
  let document ← fromLines lines
  if document.bytes ≠ bytes then throw "Text identity order does not match accepted bytes"
  pure document

def Document.identities (document : Document) : List LineIdentity :=
  document.lines.map fun line => ⟨line.id, line.orderKey.toSnapshotString⟩

/-- One record of `open_rows_fallible`; the key check leaves one UUID in the primary key. -/
def openRecord (record : Except String RowRecord) : Except String Line := do
  let record ← record
  validateRowKey record.schemaKey record.rowPk
  let line ← Line.fromTypedRow base64 record.row
  let .uuid id := record.rowPk.headD .null
    | throw "validated Text row key must contain one UUID"
  if id ≠ line.id then
    throw ("line row primary key 'Uuid(" ++ id.toString ++ ")' does not match row id '" ++
      line.id.toString ++ "'")
  pure line

def openRowsFallible (records : List (Except String RowRecord)) : Except String Document := do
  let lines ← records.mapM (openRecord base64)
  fromLines lines

end Construct

section RowsChanged

variable (base64 : Base64Engine)

/-! `rows_changed` keeps the lines in a `BTreeMap` by id: a list in increasing id order, where
an insert replaces the line with the same id. -/

def insertById (line : Line) : List Line → List Line
  | [] => [line]
  | other :: rest =>
    match compare line.id other.id with
    | .lt => line :: other :: rest
    | .eq => line :: rest
    | .gt => other :: insertById line rest

def removeById (id : Uuid) : List Line → Option (List Line)
  | [] => none
  | other :: rest => if other.id = id then some rest else (removeById id rest).map (other :: ·)

/-- One row change of `rows_changed`. -/
def applyRowChange (lines : List Line) (change : RowChange) : Except String (List Line) := do
  validateRowKey change.schemaKey change.rowPk
  let .uuid id := change.rowPk.headD .null
    | throw "validated Text row key must contain one UUID"
  match change.row with
  | some row =>
    let line ← Line.fromTypedRow base64 row
    if line.id ≠ id then
      throw ("line row primary key '" ++ id.toString ++ "' does not match row id '" ++
        line.id.toString ++ "'")
    pure (insertById line lines)
  | none =>
    match removeById id lines with
    | some rest => pure rest
    | none => throw ("cannot delete unknown line row '" ++ id.toString ++ "'")

/-- Lengths of the common prefix, as `zip` then `take_while` counts it. -/
def commonPrefixLength : List UInt8 → List UInt8 → ℕ
  | left :: lefts, right :: rights => if left = right then commonPrefixLength lefts rights + 1 else 0
  | _, _ => 0

def commonPrefixAndSuffix (before after : List UInt8) : ℕ × ℕ :=
  let pre := commonPrefixLength before after
  let suffix := commonPrefixLength (before.drop pre).reverse (after.drop pre).reverse
  (pre, suffix)

/-- The per-line edits of an unchanged layout, at offsets into the old bytes. -/
def lineEdits : ℕ → List Line → List Line → List ByteEdit
  | offset, before :: befores, after :: afters =>
    let rest := lineEdits (offset + before.bytes.length) befores afters
    if before.bytes ≠ after.bytes then ⟨offset, before.bytes.length, after.bytes⟩ :: rest else rest
  | _, _, _ => []

def sameLayout (before after : Document) : Bool :=
  before.lines.length = after.lines.length &&
    (before.lines.zip after.lines).all fun (b, a) => b.id = a.id && b.orderKey = a.orderKey

/-- `renderer_edits_to`: nothing, one edit per changed line, or one edit over the changed
middle of the bytes. -/
def rendererEditsTo (before after : Document) : List ByteEdit :=
  if before.bytes = after.bytes then []
  else if sameLayout before after then lineEdits 0 before.lines after.lines
  else
    let (pre, suffix) := commonPrefixAndSuffix before.bytes after.bytes
    [⟨pre, before.bytes.length - pre - suffix,
      (after.bytes.drop pre).take (after.bytes.length - suffix - pre)⟩]

def Document.rowsChanged (document : Document) (changes : List RowChange) :
    Except String (Document × List ByteEdit) := do
  let lines ← changes.foldlM (applyRowChange base64) (document.lines.foldl (fun map line => insertById line map) [])
  let after ← fromLines lines
  pure (after, rendererEditsTo document after)

end RowsChanged

end Lix.Text
