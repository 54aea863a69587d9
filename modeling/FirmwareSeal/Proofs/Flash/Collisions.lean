import FirmwareSeal.Proofs.Flash.WireForm

/-!
# What packing forgets

The blocks of an image depend on its length only through their count, and on its bytes only up to
zeros behind the end. So images that are equal once they are filled up are packed to one stream. The
stream tells everything else: the filled image is the data of its blocks, and the first block names
the family and the base address. Only an empty image has no block to name them.
-/

namespace FirmwareSeal

namespace Flash

/-! ## Filling up changes no block -/

/-- The zeros that are filled in reach to the next multiple of 256. -/
theorem filled_eq_append_zeros (image : Bytes) :
    filled image = image ++ zeros ((256 - image.length % 256) % 256) := by
  have hcount : dataLength * blockCount image.length - image.length =
      (256 - image.length % 256) % 256 := by
    simp only [dataLength, blockCount]
    omega
  rw [filled, hcount]

/-- A filled image has zeros where the image has no bytes. -/
theorem getD_filled (image : Bytes) (j : Nat) : (filled image).getD j 0 = image.getD j 0 := by
  unfold filled
  by_cases hj : j < image.length
  · rw [List.getD_append _ _ _ _ hj]
  · have hend : image.length ≤ j := Nat.le_of_not_lt hj
    rw [List.getD_append_right _ _ _ _ hend, List.getD_eq_default _ _ hend]
    rw [zeros, List.getD_eq_getElem?_getD, List.getElem?_replicate]
    split <;> rfl

/-- The pieces stay the same. -/
theorem filledPiece_filled (image : Bytes) (place : Nat) :
    filledPiece (filled image) place = filledPiece image place := by
  apply Octets.ext
  simp only [filledPiece, Octets.toList_padded_eq_map_range]
  apply List.map_congr_left
  intro j _
  have hbyte := getD_filled image (dataLength * place + j)
  simpa only [List.getD_eq_getElem?_getD, List.getElem?_drop] using hbyte

/-- The count of blocks stays the same. -/
theorem blockCount_length_filled (image : Bytes) :
    blockCount (filled image).length = blockCount image.length := by
  rw [length_filled]
  simp only [dataLength, blockCount]
  omega

section

variable (image : Bytes) (familyId baseAddress : UInt32)

/-- A filled image has the blocks of the image. -/
theorem blocks_filled :
    blocks (filled image) familyId baseAddress = blocks image familyId baseAddress := by
  rw [blocks_eq_map_range, blocks_eq_map_range, blockCount_length_filled]
  apply List.map_congr_left
  intro place _
  have hdata := filledPiece_filled image place
  unfold filledPiece at hdata
  unfold blockAt blockOfPiece
  rw [blockCount_length_filled, hdata]

/-! ## What the blocks tell -/

/-- The data of the blocks make up the filled image. -/
theorem flatMap_data_blocks :
    (blocks image familyId baseAddress).flatMap (fun b ↦ b.data.toList) = filled image := by
  rw [blocks_eq_map_range, List.flatMap_map]
  exact flatMap_filledPiece image

/-- Only an empty image has no blocks. -/
theorem blocks_eq_nil_iff : blocks image familyId baseAddress = [] ↔ image = [] := by
  rw [← List.length_eq_zero_iff, length_blocks, blockCount_eq_zero_iff, List.length_eq_zero_iff]

/-- The first block of an image that is not empty is the one at place zero. -/
theorem head?_blocks (h : image ≠ []) :
    (blocks image familyId baseAddress).head? = some (blockAt image familyId baseAddress 0) := by
  have hpos : blockCount image.length ≠ 0 := by
    rw [← length_blocks image familyId baseAddress]
    exact fun hzero ↦ h ((blocks_eq_nil_iff _ _ _).mp (List.length_eq_zero_iff.mp hzero))
  rw [blocks_eq_map_range, List.head?_map, List.head?_range, if_neg hpos, Option.map_some]

/-- The block at place zero goes to the base address. -/
theorem targetAddress_blockAt_zero :
    (blockAt image familyId baseAddress 0).targetAddress = baseAddress :=
  UInt32.add_zero baseAddress

end

section

variable {a b : Bytes} {familyA familyB baseA baseB : UInt32}

/-- Images with the same blocks are equal once they are filled up. -/
theorem filled_eq_of_blocks_eq (h : blocks a familyA baseA = blocks b familyB baseB) :
    filled a = filled b := by
  rw [← flatMap_data_blocks a familyA baseA, h, flatMap_data_blocks]

/-- Images with the same blocks have the same family and base address, unless they are empty. -/
theorem family_and_base_of_blocks_eq (h : blocks a familyA baseA = blocks b familyB baseB) :
    a = [] ∧ b = [] ∨ familyA = familyB ∧ baseA = baseB := by
  by_cases ha : a = []
  · left
    refine ⟨ha, (blocks_eq_nil_iff b familyB baseB).mp ?_⟩
    rw [← h, blocks_eq_nil_iff]
    exact ha
  · right
    have hb : b ≠ [] := by
      intro hb
      rw [(blocks_eq_nil_iff b familyB baseB).mpr hb, blocks_eq_nil_iff] at h
      exact ha h
    have hfirst := congrArg List.head? h
    rw [head?_blocks a _ _ ha, head?_blocks b _ _ hb, Option.some.injEq] at hfirst
    have hbase := congrArg Block.targetAddress hfirst
    rw [targetAddress_blockAt_zero, targetAddress_blockAt_zero] at hbase
    exact ⟨congrArg Block.familyId hfirst, hbase⟩

/-- Images are packed to one stream exactly if they are equal once they are filled up and have one
family and base address, which do not matter for empty ones. -/
theorem pack_eq_pack_iff_filled :
    pack a familyA baseA = pack b familyB baseB ↔
      filled a = filled b ∧ (a = [] ∧ b = [] ∨ familyA = familyB ∧ baseA = baseB) := by
  constructor
  · intro h
    have hblocks : blocks a familyA baseA = blocks b familyB baseB := emit_injective h
    exact ⟨filled_eq_of_blocks_eq hblocks, family_and_base_of_blocks_eq hblocks⟩
  · rintro ⟨hfilled, ⟨rfl, rfl⟩ | ⟨rfl, rfl⟩⟩
    · rw [pack, pack, (blocks_eq_nil_iff _ _ _).mpr rfl, (blocks_eq_nil_iff _ _ _).mpr rfl]
    · rw [pack, pack, ← blocks_filled a, ← blocks_filled b, hfilled]

end

/-! ## Images that differ in zeros at the end -/

/-- Zeros in front of zeros. -/
theorem zeros_append_zeros (m n : Nat) : zeros m ++ zeros n = zeros (m + n) :=
  List.replicate_append_replicate

/-- Zeros at the end do not show in the filled image as long as they need no further block. -/
theorem filled_append_zeros {image : Bytes} {k : Nat}
    (h : blockCount (image ++ zeros k).length = blockCount image.length) :
    filled (image ++ zeros k) = filled image := by
  have hle := le_dataLength_mul_blockCount (image ++ zeros k).length
  have hlength : (image ++ zeros k).length = image.length + k := by
    rw [List.length_append, length_zeros]
  have hzeros : k + (dataLength * blockCount image.length - (image.length + k)) =
      dataLength * blockCount image.length - image.length := by
    rw [h, hlength] at hle
    omega
  rw [filled, h, hlength, List.append_assoc, zeros_append_zeros, hzeros]
  rfl

/-- Of two images that are equal once they are filled up, the longer one has fewer zeros than a block
carries bytes behind the shorter one. -/
theorem exists_zeros_of_filled_eq {a b : Bytes} (h : filled a = filled b)
    (hle : a.length ≤ b.length) : ∃ k < 256, b = a ++ zeros k := by
  have hlengths := congrArg List.length h
  rw [length_filled, length_filled] at hlengths
  have hfits : b.length - a.length ≤ dataLength * blockCount a.length - a.length := by
    have hb := le_dataLength_mul_blockCount b.length
    omega
  refine ⟨b.length - a.length, Nat.lt_of_le_of_lt hfits (filling_lt a.length), ?_⟩
  calc
    b = (filled b).take b.length := List.take_left.symm
    _ = (filled a).take b.length := by rw [h]
    _ = a ++ zeros (min (b.length - a.length) (dataLength * blockCount a.length - a.length)) := by
      rw [filled, List.take_append, List.take_of_length_le hle, zeros, List.take_replicate, zeros]
    _ = a ++ zeros (b.length - a.length) := by rw [Nat.min_eq_left hfits]

/-- Images are equal once they are filled up exactly if they take equally many blocks and one of
them is the other with zeros behind it. -/
theorem filled_eq_filled_iff {a b : Bytes} :
    filled a = filled b ↔
      blockCount a.length = blockCount b.length ∧
        ∃ k < 256, a = b ++ zeros k ∨ b = a ++ zeros k := by
  constructor
  · intro h
    constructor
    · rw [← blockCount_length_filled a, h, blockCount_length_filled]
    · rcases Nat.le_total a.length b.length with hle | hle
      · obtain ⟨k, hk, hb⟩ := exists_zeros_of_filled_eq h hle
        exact ⟨k, hk, .inr hb⟩
      · obtain ⟨k, hk, ha⟩ := exists_zeros_of_filled_eq h.symm hle
        exact ⟨k, hk, .inl ha⟩
  · rintro ⟨hcount, k, -, rfl | rfl⟩
    · exact filled_append_zeros hcount
    · exact (filled_append_zeros hcount.symm).symm

/-- Images are packed to one stream exactly if they are equal after adding zeros up to the next
multiple of 256, and have one family and base address unless both are empty. In other words, the
stream does not tell how many zeros an image ends with, as far as they need no block of their own
and are fewer than 256, nor does it tell the family and base address of an empty image; it tells
everything else. -/
theorem packing_forgets_zeros_at_end (a b : Bytes) (familyA familyB baseA baseB : UInt32) :
    (pack a familyA baseA = pack b familyB baseB ↔
      a ++ zeros ((256 - a.length % 256) % 256) = b ++ zeros ((256 - b.length % 256) % 256) ∧
        (a = [] ∧ b = [] ∨ familyA = familyB ∧ baseA = baseB)) ∧
    (pack a familyA baseA = pack b familyB baseB ↔
      (blockCount a.length = blockCount b.length ∧
        ∃ k < 256, a = b ++ zeros k ∨ b = a ++ zeros k) ∧
        (a = [] ∧ b = [] ∨ familyA = familyB ∧ baseA = baseB)) := by
  constructor
  · rw [pack_eq_pack_iff_filled, filled_eq_append_zeros, filled_eq_append_zeros]
  · rw [pack_eq_pack_iff_filled, filled_eq_filled_iff]

end Flash

end FirmwareSeal
