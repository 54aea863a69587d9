import FirmwareSeal.Proofs.Flash.Reordering
import FirmwareSeal.Proofs.Image.WireForm
import Mathlib.Data.List.GetD

/-!
# The flash stream byte by byte

Every 512 bytes of a packed stream are written down with numbers only, from the image, the family,
the base address and the place of the block. Numbers that do not fit a word are taken modulo 2^32:
addresses run on from zero after the last one, and so do block numbers and the block count.
-/

namespace FirmwareSeal

/-- A word made of a number has it modulo 2^32. -/
theorem littleWord_ofNat (n : Nat) : littleWord (UInt32.ofNat n) = wordDigits (n % 4294967296) := by
  rw [littleWord_eq_wordDigits, UInt32.toNat_ofNat']

/-- A padded string has zeros where there are no bytes. -/
theorem Octets.toList_padded_eq_map_range (n : Nat) (bytes : Bytes) :
    (padded n bytes).toList = (List.range n).map fun j ↦ bytes.getD j 0 := by
  apply List.ext_getElem
  · rw [length_toList, List.length_map, List.length_range]
  · intro j hj hj'
    have hn : j < n := by simpa using hj'
    simp only [toList_padded, List.getElem_map, List.getElem_range]
    by_cases h : j < bytes.length
    · rw [List.getElem_append_left (by simp; omega), List.getElem_take, List.getD_eq_getElem _ _ h]
    · rw [List.getElem_append_right (by simp; omega), List.getD_eq_default _ _ (by omega)]
      simp [zeros]

namespace Flash

/-- The 512 bytes of the block with a given place: the two magics, the flags, the address, the
length of the data, the place, the block count, the family, 256 bytes of the image with zeros behind
its end, 220 zeros and the closing magic. -/
def wireBlock (image : Bytes) (family base place : Nat) : Bytes :=
  wordDigits 0x0a324655 ++ wordDigits 0x9e5d5157 ++
    wordDigits (if family = 0 then 0 else 0x2000) ++
    wordDigits ((base + 256 * place) % 4294967296) ++ wordDigits 256 ++
    wordDigits (place % 4294967296) ++ wordDigits (blockCount image.length % 4294967296) ++
    wordDigits family ++
    (List.range 256).map (fun j ↦ image.getD (256 * place + j) 0) ++
    List.replicate 220 0 ++ wordDigits 0x0ab16f30

section

variable (image : Bytes) (familyId baseAddress : UInt32)

/-- The address of a block is that of its place, modulo 2^32. -/
theorem toNat_targetAddress_blockAt (place : Nat) :
    (blockAt image familyId baseAddress place).targetAddress.toNat =
      (baseAddress.toNat + 256 * place) % 4294967296 := by
  change (baseAddress + UInt32.ofNat (256 * place)).toNat = _
  rw [UInt32.toNat_add, UInt32.toNat_ofNat']
  omega

/-- A block says whether it names a family. -/
theorem toNat_flags_blockAt (place : Nat) :
    (blockAt image familyId baseAddress place).flags.toNat =
      if familyId.toNat = 0 then 0 else 0x2000 := by
  change (if familyId = 0 then 0 else familyFlag).toNat = _
  by_cases h : familyId = 0
  · rw [h]
    rfl
  · have hnat : familyId.toNat ≠ 0 := fun hzero ↦ h (UInt32.toNat_inj.mp hzero)
    rw [if_neg h, if_neg hnat]
    rfl

/-- A block carries the bytes of its place, with zeros behind the end of the image. -/
theorem toList_data_blockAt (place : Nat) :
    (blockAt image familyId baseAddress place).data.toList =
      (List.range 256).map fun j ↦ image.getD (256 * place + j) 0 := by
  change (Octets.padded 256 (image.drop (256 * place))).toList = _
  rw [Octets.toList_padded_eq_map_range]
  simp only [List.getD_eq_getElem?_getD, List.getElem?_drop]

/-- A block is written in the wire form. -/
theorem toBytes_blockAt (place : Nat) :
    (blockAt image familyId baseAddress place).toBytes =
      wireBlock image familyId.toNat baseAddress.toNat place := by
  have hnumber : littleWord (blockAt image familyId baseAddress place).blockNumber =
      wordDigits (place % 4294967296) := littleWord_ofNat place
  have hcount : littleWord (blockAt image familyId baseAddress place).blockCount =
      wordDigits (blockCount image.length % 4294967296) := littleWord_ofNat _
  simp only [Block.toBytes, Block.words, List.flatMap_cons, List.flatMap_nil, List.append_nil,
    hnumber, hcount, toList_data_blockAt]
  simp only [littleWord_eq_wordDigits, toNat_targetAddress_blockAt, toNat_flags_blockAt,
    List.append_assoc, wireBlock]
  rfl

end

/-- A packed stream has 512 bytes for each block, and the bytes of every block are those of the wire
form. -/
theorem packed_stream_has_wire_form (image : Bytes) (familyId baseAddress : UInt32) :
    (pack image familyId baseAddress).length = 512 * blockCount image.length ∧
    ∀ place < blockCount image.length,
      slice (pack image familyId baseAddress) place =
        wireBlock image familyId.toNat baseAddress.toNat place := by
  constructor
  · rw [pack, length_emit, length_blocks]
  · intro place hplace
    rw [slice_pack image familyId baseAddress hplace, toBytes_blockAt]

/-- An image of 257 bytes takes two blocks. The second one carries one byte of it, and its address
is past the last one, so it is a small number. -/
theorem packed_stream_has_wire_form_across_address_wrap :
    let stream := pack (List.replicate 257 7) 1 0xffffff80
    stream.length = 1024 ∧
    slice stream 1 =
      wordDigits 0x0a324655 ++ wordDigits 0x9e5d5157 ++ wordDigits 0x2000 ++ wordDigits 0x80 ++
        wordDigits 256 ++ wordDigits 1 ++ wordDigits 2 ++ wordDigits 1 ++
        (7 :: List.replicate 475 0) ++ wordDigits 0x0ab16f30 := by
  intro stream
  obtain ⟨hlength, hslice⟩ := packed_stream_has_wire_form (List.replicate 257 7) 1 0xffffff80
  have htwo : blockCount (List.replicate 257 (7 : UInt8)).length = 2 := by
    rw [List.length_replicate]
    rfl
  rw [htwo] at hlength hslice
  refine ⟨hlength, (hslice 1 (by decide)).trans ?_⟩
  decide +kernel

end Flash

end FirmwareSeal
