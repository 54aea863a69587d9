import FirmwareSeal.Proofs.Flash.Unpacking
import Mathlib.Algebra.Group.Nat.Defs
import Mathlib.Order.GaloisConnection.Basic

/-!
# Counting blocks

A number of blocks is enough for an image exactly if they have room for all of its bytes. So the
count of blocks is the least number that is enough, and it never falls as the length grows. In
64-bit arithmetic the length is divided first and the quotient raised by one, which cannot overflow;
rounding the length up before the division would, for the last 255 lengths. Cutting an image into
pieces makes as many blocks as were counted.
-/

namespace FirmwareSeal

namespace Flash

/-- Counting blocks is the lower adjoint of telling how much room they have. -/
theorem gc_blockCount : GaloisConnection blockCount (256 * ·) := fun _ _ ↦ blockCount_le_iff

/-! ## Counting in 64-bit arithmetic -/

/-- The sum of two 64-bit numbers, if it does not overflow. -/
def checkedAdd? (a b : UInt64) : Option UInt64 :=
  if a.toNat + b.toNat < UInt64.size then some (a + b) else none

/-- How many blocks carry `n` bytes, in 64-bit arithmetic that stops at an overflow. -/
def checkedBlockCount? (n : UInt64) : Option UInt64 :=
  if n % 256 = 0 then some (n / 256) else checkedAdd? (n / 256) 1

/-- A sum that does not overflow is the sum of the numbers. -/
theorem toNat_of_checkedAdd? {a b sum : UInt64} (h : checkedAdd? a b = some sum) :
    sum.toNat = a.toNat + b.toNat := by
  unfold checkedAdd? at h
  split at h
  · next hfits =>
    rw [← Option.some.inj h, UInt64.toNat_add]
    exact Nat.mod_eq_of_lt hfits
  · cases h

section

variable (n : UInt64)

/-- A quotient by 256 can be raised by one. -/
theorem checkedAdd?_div_one : checkedAdd? (n / 256) 1 = some (n / 256 + 1) := by
  have hdiv : (n / 256).toNat = n.toNat / 256 := UInt64.toNat_div n 256
  have hfits : (n / 256).toNat + (1 : UInt64).toNat < UInt64.size := by
    have hn := n.toNat_lt
    rw [hdiv, UInt64.toNat_one, UInt64.size]
    omega
  rw [checkedAdd?, if_pos hfits]

/-- Counting does not overflow. -/
theorem checkedBlockCount?_eq : checkedBlockCount? n = some (blockCount64 n) := by
  rw [checkedBlockCount?, checkedAdd?_div_one, blockCount64]
  exact (apply_ite some _ _ _).symm

/-- The count in 64-bit arithmetic is that of the number. -/
theorem toNat_blockCount64 : (blockCount64 n).toNat = blockCount n.toNat := by
  have hdiv : (n / 256).toNat = n.toNat / 256 := UInt64.toNat_div n 256
  have hmod : n % 256 = 0 ↔ n.toNat % 256 = 0 := by
    rw [← UInt64.toNat_inj, UInt64.toNat_mod]
    rfl
  unfold blockCount64 blockCount
  split
  · next h =>
    rw [hmod] at h
    rw [hdiv]
    omega
  · next h =>
    rw [hmod] at h
    rw [toNat_of_checkedAdd? (checkedAdd?_div_one n), hdiv, UInt64.toNat_one]
    omega

/-- The count is the least number of blocks that is enough. -/
theorem isLeast_blockCount64 :
    IsLeast {count : Nat | n.toNat ≤ 256 * count} (blockCount64 n).toNat := by
  rw [toNat_blockCount64]
  exact gc_blockCount.isLeast_l

/-- Only nothing takes no blocks, also in 64-bit arithmetic. -/
theorem blockCount64_eq_zero_iff : blockCount64 n = 0 ↔ n = 0 := by
  rw [← UInt64.toNat_inj, toNat_blockCount64, UInt64.toNat_zero, blockCount_eq_zero_iff,
    ← UInt64.toNat_zero, UInt64.toNat_inj]

/-- No length takes more than 2^56 blocks. -/
theorem toNat_blockCount64_le : (blockCount64 n).toNat ≤ 2 ^ 56 := by
  rw [toNat_blockCount64, blockCount_le_iff]
  exact Nat.le_of_lt n.toNat_lt

end

/-- A longer image takes no fewer blocks. -/
theorem blockCount64_le_blockCount64 {m n : UInt64} (h : m ≤ n) :
    blockCount64 m ≤ blockCount64 n := by
  rw [UInt64.le_iff_toNat_le, toNat_blockCount64, toNat_blockCount64]
  exact gc_blockCount.monotone_l (UInt64.le_iff_toNat_le.mp h)

/-! ## Counting and cutting -/

section

variable (image : Bytes) (familyId baseAddress : UInt32)

/-- A packed image has 512 bytes for each of its blocks. -/
theorem length_pack :
    (pack image familyId baseAddress).length = 512 * blockCount image.length := by
  rw [pack, length_emit, length_blocks]

/-- Every block names the count, as a word. -/
theorem map_blockCount_blocks :
    (blocks image familyId baseAddress).map Block.blockCount =
      List.replicate (blockCount image.length) (UInt32.ofNat (blockCount image.length)) := by
  rw [blocks_eq_map_range, List.map_map]
  change (List.range _).map (fun _ ↦ UInt32.ofNat (blockCount image.length)) = _
  rw [List.map_const', List.length_range]

end

/-- Counting the blocks of a length in 64-bit arithmetic overflows for no length, and gives the least
number of blocks that have room for it: zero for nothing only, 2^56 at most, and no fewer for more
bytes. An image is cut into as many blocks as are counted for its length, and its stream has 512
bytes for each. If the length has 64 bits, so does the count, and every block names it, modulo
2^32. -/
theorem blocks_are_counted_exactly :
    (∀ n : UInt64,
      checkedBlockCount? n = some (blockCount64 n) ∧
      IsLeast {count : Nat | n.toNat ≤ 256 * count} (blockCount64 n).toNat ∧
      (blockCount64 n = 0 ↔ n = 0) ∧
      (blockCount64 n).toNat ≤ 2 ^ 56) ∧
    (∀ m n : UInt64, m ≤ n → blockCount64 m ≤ blockCount64 n) ∧
    ∀ (image : Bytes) (familyId baseAddress : UInt32),
      (blocks image familyId baseAddress).length = blockCount image.length ∧
      (pack image familyId baseAddress).length = 512 * blockCount image.length ∧
      ∀ n : UInt64, n.toNat = image.length →
        (blocks image familyId baseAddress).length = (blockCount64 n).toNat ∧
        (pack image familyId baseAddress).length = 512 * (blockCount64 n).toNat ∧
        (blocks image familyId baseAddress).map Block.blockCount =
          List.replicate (blockCount64 n).toNat (blockCount64 n).toUInt32 := by
  refine ⟨?_, fun m n h ↦ blockCount64_le_blockCount64 h, ?_⟩
  · intro n
    exact ⟨checkedBlockCount?_eq n, isLeast_blockCount64 n, blockCount64_eq_zero_iff n,
      toNat_blockCount64_le n⟩
  · intro image familyId baseAddress
    refine ⟨length_blocks image familyId baseAddress, length_pack image familyId baseAddress, ?_⟩
    intro n hn
    have hcount : blockCount image.length = (blockCount64 n).toNat := by
      rw [toNat_blockCount64, hn]
    have hword : UInt32.ofNat (blockCount64 n).toNat = (blockCount64 n).toUInt32 := rfl
    rw [length_blocks, length_pack, map_blockCount_blocks, hcount, hword]
    exact ⟨rfl, rfl, rfl⟩

/-- The last length takes 2^56 blocks, and 254 bytes less do not take more. An image of 257 bytes has
two blocks, each of which says so. -/
theorem blocks_are_counted_exactly_at_last_length :
    checkedBlockCount? 0xffffffffffffffff = some 0x100000000000000 ∧
    blockCount64 0xffffffffffffff01 ≤ blockCount64 0xffffffffffffffff ∧
    (blocks (List.replicate 257 7) 1 0xffffff80).length = 2 ∧
    (pack (List.replicate 257 7) 1 0xffffff80).length = 1024 ∧
    (blocks (List.replicate 257 7) 1 0xffffff80).map Block.blockCount = [2, 2] := by
  obtain ⟨hcount, hmono, hcut⟩ := blocks_are_counted_exactly
  obtain ⟨-, -, hlong⟩ := hcut (List.replicate 257 7) 1 0xffffff80
  obtain ⟨hblocks, hpack, hnamed⟩ := hlong 257 List.length_replicate.symm
  have htwo : blockCount64 257 = 2 := by decide
  rw [htwo] at hblocks hpack hnamed
  exact ⟨(hcount 0xffffffffffffffff).1, hmono _ _ (by decide), hblocks, hpack, hnamed⟩

end Flash

end FirmwareSeal
