import FirmwareSeal.Proofs.Flash.Unpacking

/-!
# Blocks out of order

Every block says which piece of the image it carries, so a stream need not arrive as it was
packed. The 512-byte slices of a packed stream, in any order, some of them missing and some of
them repeated, are read as the blocks that they hold, and unpacking puts their pieces into
ascending order.
-/

namespace FirmwareSeal

namespace Flash

section

variable (image : Bytes) (familyId baseAddress : UInt32)

/-! ## Slices of a packed stream -/

/-- The slice of a packed stream at a place holds the block of that place. -/
theorem slice_pack {place : Nat} (h : place < blockCount image.length) :
    slice (pack image familyId baseAddress) place =
      (blockAt image familyId baseAddress place).toBytes := by
  have hlength : place < (blocks image familyId baseAddress).length := by
    rw [length_blocks]
    exact h
  rw [pack, slice_emit _ place hlength]
  simp only [blocks_eq_map_range, List.getElem_map, List.getElem_range]

/-- Slices of a packed stream, joined in any order, are the stream of their blocks. -/
theorem flatMap_slice_pack {places : List Nat} (h : ∀ i ∈ places, i < blockCount image.length) :
    places.flatMap (slice (pack image familyId baseAddress)) =
      emit (places.map (blockAt image familyId baseAddress)) := by
  rw [emit, List.flatMap_map]
  exact List.flatMap_congr fun i hi ↦ slice_pack image familyId baseAddress (h i hi)

/-- Slices of a packed stream, joined in any order, are read as their blocks. -/
theorem parse?_flatMap_slice_pack {places : List Nat}
    (h : ∀ i ∈ places, i < blockCount image.length) :
    parse? (places.flatMap (slice (pack image familyId baseAddress))) =
      some (places.map (blockAt image familyId baseAddress)) := by
  rw [flatMap_slice_pack image familyId baseAddress h]
  exact parse?_emit_map_blockAt image familyId baseAddress places

/-! ## Reordered streams -/

/-- An image with no more blocks than there are block numbers is packed into a stream that is read
as its blocks. Any slices of the stream, joined in any order and with any of them left out or
repeated, are read as well, and unpack to the pieces of their places in ascending order, each as
often as its slice was taken. So all the slices in any order unpack to the image and fewer zeros
than a block carries bytes. -/
theorem slices_of_pack_unpack_in_order (h : blockCount image.length ≤ UInt32.size) :
    parse? (pack image familyId baseAddress) = some (blocks image familyId baseAddress) ∧
    (∀ places : List Nat, (∀ i ∈ places, i < blockCount image.length) →
      ∃ bs, parse? (places.flatMap (slice (pack image familyId baseAddress))) = some bs ∧
        ∀ sorted : List Nat, sorted.Perm places → sorted.Pairwise (· ≤ ·) →
          unpack bs = sorted.flatMap fun i ↦ (filledPiece image i).toList) ∧
    ∀ order : List Nat, order.Perm (List.range (blockCount image.length)) →
      ∃ bs, parse? (order.flatMap (slice (pack image familyId baseAddress))) = some bs ∧
        ∃ k < 256, unpack bs = image ++ zeros k := by
  have hword (places : List Nat) (hplaces : ∀ i ∈ places, i < blockCount image.length) :
      ∀ i ∈ places, i < UInt32.size :=
    fun i hi ↦ Nat.lt_of_lt_of_le (hplaces i hi) h
  refine ⟨parse?_pack image familyId baseAddress, ?_, ?_⟩
  · intro places hplaces
    refine ⟨_, parse?_flatMap_slice_pack image familyId baseAddress hplaces, ?_⟩
    intro sorted hperm hsorted
    exact unpack_map_blockAt image familyId baseAddress (hword places hplaces) hperm hsorted
  · intro order horder
    have hplaces (i : Nat) (hi : i ∈ order) : i < blockCount image.length :=
      List.mem_range.mp (horder.mem_iff.mp hi)
    refine ⟨_, parse?_flatMap_slice_pack image familyId baseAddress hplaces, _,
      filling_lt image.length, ?_⟩
    rw [unpack_map_blockAt image familyId baseAddress (hword order hplaces) horder.symm
      List.pairwise_le_range, flatMap_filledPiece]
    rfl

end

/-- The second block of an image of 257 bytes, its first and its second again: the pieces come out
in order. -/
theorem slices_of_pack_unpack_in_order_at_repeated_place :
    ∃ bs, parse? ([1, 0, 1].flatMap (slice (pack (List.replicate 257 7) 0 0xffffff00))) = some bs ∧
      unpack bs = List.replicate 257 7 ++ (zeros 255 ++ (7 :: zeros 255)) := by
  have hcount : blockCount (List.replicate 257 (7 : UInt8)).length = 2 := by
    rw [List.length_replicate]
    rfl
  obtain ⟨-, hany, -⟩ :=
    slices_of_pack_unpack_in_order (List.replicate 257 7) 0 0xffffff00 (by rw [hcount]; decide)
  obtain ⟨bs, hparse, hunpack⟩ := hany [1, 0, 1] (by rw [hcount]; decide)
  refine ⟨bs, hparse, ?_⟩
  rw [hunpack [0, 1, 1] (by decide) (by decide)]
  decide +kernel

end Flash

end FirmwareSeal
