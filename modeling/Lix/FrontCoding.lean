import Lix.Varint

/-! Front coding of a sorted run of byte strings: each string is written as the length it
shares with a base (the string before it), the length of the rest, and the rest. The shared
length is the longest common prefix, so the base's first `shared` bytes and the rest give the
string back. -/
namespace Lix.FrontCoding
open Varint

section Prefix

variable {α : Type} [DecidableEq α]

/-- The number of leading elements two lists share. -/
def sharedPrefixLen (left right : List α) : ℕ :=
  ((left.zip right).takeWhile fun pair => pair.1 == pair.2).length

@[simp] theorem sharedPrefixLen_nil_left (right : List α) : sharedPrefixLen [] right = 0 := rfl

@[simp] theorem sharedPrefixLen_nil_right (left : List α) : sharedPrefixLen left [] = 0 := by
  simp [sharedPrefixLen]

theorem sharedPrefixLen_cons (a b : α) (left right : List α) :
    sharedPrefixLen (a :: left) (b :: right) =
      if a = b then sharedPrefixLen left right + 1 else 0 := by
  by_cases hab : a = b <;> simp [sharedPrefixLen, hab]

theorem sharedPrefixLen_le_left : ∀ (left right : List α), sharedPrefixLen left right ≤ left.length
  | [], _ => by simp
  | _ :: _, [] => by simp
  | a :: left, b :: right => by
    rw [sharedPrefixLen_cons]
    split
    · simpa using sharedPrefixLen_le_left left right
    · simp

theorem sharedPrefixLen_le_right : ∀ (left right : List α), sharedPrefixLen left right ≤ right.length
  | [], _ => by simp
  | _ :: _, [] => by simp
  | a :: left, b :: right => by
    rw [sharedPrefixLen_cons]
    split
    · simpa using sharedPrefixLen_le_right left right
    · simp

/-- Both lists start with the shared prefix. -/
theorem take_sharedPrefixLen : ∀ (left right : List α),
    left.take (sharedPrefixLen left right) = right.take (sharedPrefixLen left right)
  | [], _ => by simp
  | _ :: _, [] => by simp
  | a :: left, b :: right => by
    rw [sharedPrefixLen_cons]
    split
    · rename_i hab
      subst hab
      simp [take_sharedPrefixLen left right]
    · simp

/-- The base's shared prefix and the rest of a string give the string. -/
theorem take_append_drop_sharedPrefixLen (base value : List α) :
    base.take (sharedPrefixLen base value) ++ value.drop (sharedPrefixLen base value) = value := by
  rw [take_sharedPrefixLen, List.take_append_drop]

end Prefix

/-- One front-coded string: the shared length, the length of the rest, and the rest. -/
def writeFrontCoded (base value : List UInt8) : List UInt8 :=
  let shared := sharedPrefixLen base value
  writeVarint shared ++ writeVarint (value.length - shared) ++ value.drop shared

theorem writeFrontCoded_eq (base value : List UInt8) :
    writeFrontCoded base value =
      writeVarint (sharedPrefixLen base value) ++
        writeVarint (value.drop (sharedPrefixLen base value)).length ++
          value.drop (sharedPrefixLen base value) := by
  rw [writeFrontCoded, List.length_drop]

/-- A string is no longer than its base and its front coding together. -/
theorem length_le_writeFrontCoded (base value : List UInt8) :
    value.length ≤ base.length + (writeFrontCoded base value).length := by
  have hshared := sharedPrefixLen_le_left base value
  rw [writeFrontCoded_eq]
  simp only [List.length_append, List.length_drop]
  omega

theorem writeFrontCoded_ne_nil (base value : List UInt8) : writeFrontCoded base value ≠ [] := by
  rw [writeFrontCoded_eq]
  simp [writeVarint_ne_nil]

end Lix.FrontCoding
