import FirmwareSeal.Proofs.Flash.Codec

/-!
# Unpacking what was packed

The block at a place of an image carries the piece of that place, and its number is the place as
long as that fits a word. So any choice of an image's blocks, in any order, unpacks to their pieces
in ascending order. Only the last piece is padded: all the blocks unpack to the image, filled up
with zeros to full blocks.
-/

namespace FirmwareSeal

namespace Flash

/-- The data of full blocks: an image with zeros up to the end of its last block. -/
def filled (image : Bytes) : Bytes :=
  image ++ zeros (dataLength * blockCount image.length - image.length)

/-- The blocks have room for all the bytes. -/
theorem le_dataLength_mul_blockCount (n : Nat) : n ≤ dataLength * blockCount n :=
  blockCount_le_iff.mp (Nat.le_refl _)

/-- Fewer zeros are filled in than a block carries bytes. -/
theorem filling_lt (n : Nat) : dataLength * blockCount n - n < dataLength := by
  simp only [dataLength, blockCount]
  omega

/-- A filled image is as long as its blocks. -/
theorem length_filled (image : Bytes) :
    (filled image).length = dataLength * blockCount image.length := by
  have hle := le_dataLength_mul_blockCount image.length
  rw [filled, List.length_append, length_zeros, Nat.add_sub_cancel' hle]

/-- A full piece in front stays as it is. -/
theorem filled_append {piece : Bytes} (h : piece.length = dataLength) (rest : Bytes) :
    filled (piece ++ rest) = piece ++ filled rest := by
  have hz : dataLength * blockCount (piece ++ rest).length - (piece ++ rest).length =
      dataLength * blockCount rest.length - rest.length := by
    rw [List.length_append, h]
    simp only [dataLength, blockCount]
    omega
  rw [filled, hz, List.append_assoc]
  rfl

/-- A piece that is the only one is filled up to one block. -/
theorem filled_of_length_le {piece : Bytes} (hpos : 0 < piece.length)
    (hle : piece.length ≤ 256) : filled piece = (Octets.padded 256 piece).toList := by
  have hz : dataLength * blockCount piece.length - piece.length = 256 - piece.length := by
    simp only [dataLength, blockCount]
    omega
  rw [filled, hz, Octets.toList_padded, List.take_of_length_le hle]

/-- The padded pieces of an image make up the filled image. -/
theorem flatMap_padded_chunks (image : Bytes) :
    (chunks dataLength image).flatMap (fun piece ↦ (Octets.padded 256 piece).toList) =
      filled image := by
  fun_induction chunks dataLength image with
  | case1 => rfl
  | case2 a l ih =>
    rw [List.flatMap_cons, ih]
    by_cases hl : dataLength - 1 ≤ l.length
    · have hp : (a :: l.take (dataLength - 1)).length = 256 := by
        rw [List.length_cons, List.length_take, Nat.min_eq_left hl]
        rfl
      rw [Octets.toList_padded_of_length hp, ← filled_append hp, List.cons_append,
        List.take_append_drop]
    · -- The piece is the last one: nothing is left to be cut.
      have hlt : l.length < dataLength - 1 := Nat.lt_of_not_le hl
      have hle : (a :: l).length ≤ 256 := Nat.le_of_lt (Nat.succ_lt_succ hlt)
      rw [List.take_of_length_le (Nat.le_of_lt hlt), List.drop_of_length_le (Nat.le_of_lt hlt),
        ← filled_of_length_le (List.length_pos_of_mem List.mem_cons_self) hle]
      exact List.append_nil _

/-! ## Sorting blocks -/

/-- Whether a block may stand in front of another one. -/
def numberLe (a b : Block) : Bool := a.blockNumber ≤ b.blockNumber

/-- The order of the numbers is transitive. -/
theorem numberLe_trans (a b c : Block) (hab : numberLe a b = true) (hbc : numberLe b c = true) :
    numberLe a c = true :=
  decide_eq_true (UInt32.le_trans (of_decide_eq_true hab) (of_decide_eq_true hbc))

/-- Of two blocks one may stand in front. -/
theorem numberLe_total (a b : Block) : (numberLe a b || numberLe b a) = true := by
  rw [Bool.or_eq_true]
  exact (UInt32.le_total a.blockNumber b.blockNumber).imp decide_eq_true decide_eq_true

/-- The blocks in the order of their numbers, those with one number in the order of the list. -/
def inOrder (bs : List Block) : List Block := bs.mergeSort numberLe

/-- Unpacking joins the payloads in this order. -/
theorem unpack_eq_flatMap_inOrder (bs : List Block) :
    unpack bs = (inOrder bs).flatMap Block.payload := rfl

/-- No block gets lost, and none is repeated. -/
theorem inOrder_perm (bs : List Block) : (inOrder bs).Perm bs := List.mergeSort_perm bs numberLe

/-- The numbers ascend. -/
theorem pairwise_inOrder (bs : List Block) :
    (inOrder bs).Pairwise fun a b ↦ a.blockNumber ≤ b.blockNumber :=
  (List.pairwise_mergeSort numberLe_trans numberLe_total bs).imp of_decide_eq_true

/-- Blocks are unpacked in the order of their numbers, whatever their order in the list, if blocks
that share a number are copies of one block. -/
theorem unpack_eq_of_perm {bs sorted : List Block} (hperm : sorted.Perm bs)
    (hsorted : sorted.Pairwise fun a b ↦ a.blockNumber ≤ b.blockNumber)
    (hcopies : ∀ a ∈ bs, ∀ b ∈ bs, a.blockNumber = b.blockNumber → a = b) :
    unpack bs = sorted.flatMap Block.payload := by
  -- Both lists are sorted and hold the same blocks, and equal numbers mean equal blocks.
  have he : inOrder bs = sorted := by
    refine List.Perm.eq_of_pairwise ?_ (pairwise_inOrder bs) hsorted
      ((inOrder_perm bs).trans hperm.symm)
    intro a b ha hb hab hba
    exact hcopies a ((inOrder_perm bs).mem_iff.mp ha) b (hperm.mem_iff.mp hb)
      (UInt32.le_antisymm hab hba)
  rw [unpack_eq_flatMap_inOrder, he]

/-! ## The block at a place -/

/-- The 256 bytes of an image that belong to a given place, with zeros behind its end. -/
def filledPiece (image : Bytes) (place : Nat) : Octets 256 :=
  Octets.padded 256 (image.drop (dataLength * place))

section

variable (image : Bytes) (familyId baseAddress : UInt32)

/-- The block of an image that has a given place. -/
def blockAt (place : Nat) : Block :=
  blockOfPiece familyId baseAddress (blockCount image.length) place
    (image.drop (dataLength * place))

/-- The number of a block is its place, if that fits a word. -/
theorem toNat_blockNumber_blockAt {place : Nat} (h : place < UInt32.size) :
    (blockAt image familyId baseAddress place).blockNumber.toNat = place :=
  UInt32.toNat_ofNat_of_lt' h

/-- A block carries the bytes of its place. -/
theorem payload_blockAt (place : Nat) :
    (blockAt image familyId baseAddress place).payload = (filledPiece image place).toList :=
  List.take_of_length_le (Nat.le_of_eq (filledPiece image place).length_toList)

/-- There are as many blocks as the count in them says. -/
theorem length_blocks : (blocks image familyId baseAddress).length = blockCount image.length := by
  rw [blocks, List.length_mapIdx, length_chunks (by decide)]
  rfl

/-- The blocks of an image are the blocks at its places, in order. -/
theorem blocks_eq_map_range :
    blocks image familyId baseAddress =
      (List.range (blockCount image.length)).map (blockAt image familyId baseAddress) := by
  apply List.ext_getElem
  · rw [length_blocks, List.length_map, List.length_range]
  · intro i hi hj
    simp only [blocks, List.getElem_mapIdx, List.getElem_map, List.getElem_range,
      getElem_chunks (n := dataLength) (by decide)]
    simp only [blockAt, blockOfPiece, dataLength, Octets.padded_take]

/-- The pieces of all places make up the filled image. -/
theorem flatMap_filledPiece :
    (List.range (blockCount image.length)).flatMap (fun i ↦ (filledPiece image i).toList) =
      filled image := by
  rw [← flatMap_padded_chunks, chunks_eq_map_range (by decide), List.flatMap_map]
  refine List.flatMap_congr fun i _ ↦ congrArg Octets.toList ?_
  exact (Octets.padded_take 256 _).symm

/-! ## Any choice of blocks -/

/-- Any choice of an image's blocks is read from its stream. -/
theorem parse?_emit_map_blockAt (places : List Nat) :
    parse? (emit (places.map (blockAt image familyId baseAddress))) =
      some (places.map (blockAt image familyId baseAddress)) := by
  apply parse?_emit
  intro b hb
  obtain ⟨i, -, rfl⟩ := List.mem_map.mp hb
  exact Nat.le_refl dataLength

/-- Any choice of an image's blocks is unpacked in the ascending order of the places. -/
theorem unpack_map_blockAt {places sorted : List Nat} (hword : ∀ i ∈ places, i < UInt32.size)
    (hperm : sorted.Perm places) (hsorted : sorted.Pairwise (· ≤ ·)) :
    unpack (places.map (blockAt image familyId baseAddress)) =
      sorted.flatMap fun i ↦ (filledPiece image i).toList := by
  -- Places that fit a word are numbers, so the blocks of sorted places are sorted, and one number
  -- means one block.
  have hnumber {i : Nat} (hi : i ∈ places) :
      (blockAt image familyId baseAddress i).blockNumber.toNat = i :=
    toNat_blockNumber_blockAt image familyId baseAddress (hword i hi)
  have hordered : (sorted.map (blockAt image familyId baseAddress)).Pairwise
      fun a b ↦ a.blockNumber ≤ b.blockNumber := by
    rw [List.pairwise_map]
    apply hsorted.imp_of_mem
    intro i j hi hj hij
    rw [UInt32.le_iff_toNat_le, hnumber (hperm.mem_iff.mp hi), hnumber (hperm.mem_iff.mp hj)]
    exact hij
  rw [unpack_eq_of_perm (hperm.map _) hordered, List.flatMap_map]
  · exact List.flatMap_congr fun i _ ↦ payload_blockAt image familyId baseAddress i
  · intro a ha b hb hab
    obtain ⟨i, hi, rfl⟩ := List.mem_map.mp ha
    obtain ⟨j, hj, rfl⟩ := List.mem_map.mp hb
    have hij : i = j := by rw [← hnumber hi, ← hnumber hj, hab]
    rw [hij]

/-! ## All blocks -/

/-- A packed image is read as its blocks. -/
theorem parse?_pack :
    parse? (pack image familyId baseAddress) = some (blocks image familyId baseAddress) := by
  rw [pack, blocks_eq_map_range]
  exact parse?_emit_map_blockAt image familyId baseAddress _

/-- The blocks of an image unpack to the filled image. -/
theorem unpack_blocks (h : blockCount image.length ≤ UInt32.size) :
    unpack (blocks image familyId baseAddress) = filled image := by
  have hword (i : Nat) (hi : i ∈ List.range (blockCount image.length)) : i < UInt32.size :=
    Nat.lt_of_lt_of_le (List.mem_range.mp hi) h
  rw [blocks_eq_map_range, unpack_map_blockAt image familyId baseAddress hword (List.Perm.refl _)
    List.pairwise_le_range, flatMap_filledPiece]

end

end Flash

end FirmwareSeal
