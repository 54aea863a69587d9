/-!
# Byte strings and byte strings of a fixed length

A byte string is a list of bytes. `Octets n` is one of exactly `n` bytes, seen through `toList`;
`Octets.ofList?` accepts a list of that length only, and `Octets.padded` cuts or zero-fills any
list to it. `zeros n` is the padding that every layout of this library uses.
-/

namespace FirmwareSeal

/-- A string of bytes of any length. -/
abbrev Bytes := List UInt8

/-- The string of `n` zero bytes. -/
def zeros (n : Nat) : Bytes := List.replicate n 0

/-- Zero padding has the requested length. -/
@[simp] theorem length_zeros (n : Nat) : (zeros n).length = n := List.length_replicate

/-- A string of exactly `n` bytes. -/
structure Octets (n : Nat) where
  toList : Bytes
  length_toList : toList.length = n
  deriving DecidableEq

namespace Octets

attribute [simp] length_toList

/-- Fixed-length strings with the same bytes are equal. -/
@[ext] theorem ext {n : Nat} {a b : Octets n} (h : a.toList = b.toList) : a = b := by
  cases a
  cases b
  cases h
  rfl

/-- The bytes determine a fixed-length string. -/
theorem toList_inj {n : Nat} {a b : Octets n} : a.toList = b.toList ↔ a = b :=
  ⟨ext, fun h ↦ congrArg toList h⟩

/-- All bytes zero. -/
def zero (n : Nat) : Octets n := ⟨zeros n, length_zeros n⟩

/-- The list as a string of `n` bytes, if it has that length. -/
def ofList? (n : Nat) (bytes : Bytes) : Option (Octets n) :=
  if h : bytes.length = n then some ⟨bytes, h⟩ else none

/-- The first `n` bytes of the list, with zeros in place of missing ones. -/
def padded (n : Nat) (bytes : Bytes) : Octets n :=
  ⟨bytes.take n ++ zeros (n - bytes.length), by simp; omega⟩

/-- Two fixed-length strings, one after the other. -/
def append {m n : Nat} (a : Octets m) (b : Octets n) : Octets (m + n) :=
  ⟨a.toList ++ b.toList, by simp⟩

/-- The zero string holds zeros only. -/
@[simp] theorem toList_zero (n : Nat) : (zero n).toList = zeros n := rfl

/-- Padding keeps the leading bytes and fills up with zeros. -/
@[simp] theorem toList_padded (n : Nat) (bytes : Bytes) :
    (padded n bytes).toList = bytes.take n ++ zeros (n - bytes.length) := rfl

/-- Joined strings hold the bytes of both, in order. -/
@[simp] theorem toList_append {m n : Nat} (a : Octets m) (b : Octets n) :
    (a.append b).toList = a.toList ++ b.toList := rfl

/-- Reading a list as `n` bytes keeps its bytes. -/
theorem ofList?_eq_some_iff {n : Nat} {bytes : Bytes} {a : Octets n} :
    ofList? n bytes = some a ↔ a.toList = bytes := by
  unfold ofList?
  split
  · next h =>
    rw [Option.some.injEq]
    exact ⟨fun e ↦ e ▸ rfl, fun e ↦ ext e.symm⟩
  · next h =>
    constructor
    · intro e
      cases e
    · intro e
      exact absurd (e ▸ a.length_toList) h

/-- A fixed-length string is read back from its own bytes. -/
@[simp] theorem ofList?_toList {n : Nat} (a : Octets n) : ofList? n a.toList = some a :=
  ofList?_eq_some_iff.mpr rfl

/-- A list of another length is no string of `n` bytes. -/
theorem ofList?_eq_none_iff {n : Nat} {bytes : Bytes} :
    ofList? n bytes = none ↔ bytes.length ≠ n := by
  unfold ofList?
  split <;> simp_all

/-- A list of the right length needs no padding. -/
theorem toList_padded_of_length {n : Nat} {bytes : Bytes} (h : bytes.length = n) :
    (padded n bytes).toList = bytes := by
  simp [← h, zeros]

end Octets

/-! ## Cutting a list into pieces -/

/-- The consecutive pieces of `n` elements (of one element if `n` is zero); the last may be shorter. -/
def chunks {α : Type} (n : Nat) : List α → List (List α)
  | [] => []
  | a :: l => (a :: l.take (n - 1)) :: chunks n (l.drop (n - 1))
termination_by l => l.length
decreasing_by simp only [List.length_drop, List.length_cons]; omega

/-- Nothing has no pieces. -/
@[simp] theorem chunks_nil {α : Type} (n : Nat) : chunks n ([] : List α) = [] := by
  rw [chunks]

/-- The first piece of a nonempty list is its first `n` elements, the others cut up the rest. -/
theorem chunks_of_ne_nil {α : Type} {n : Nat} (hn : 0 < n) {l : List α} (hl : l ≠ []) :
    chunks n l = l.take n :: chunks n (l.drop n) := by
  obtain ⟨k, rfl⟩ : ∃ k, n = k + 1 := ⟨n - 1, by omega⟩
  cases l with
  | nil => exact absurd rfl hl
  | cons a l => rw [chunks]; simp

end FirmwareSeal
