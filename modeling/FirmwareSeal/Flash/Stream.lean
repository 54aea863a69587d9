import FirmwareSeal.Flash.Block

/-!
# Streams of flash blocks

An image is cut into pieces of 256 bytes, the last one filled up with zeros, and each piece becomes
a block with the flash address that it goes to. Addresses, block numbers and the block count are
words, so they wrap. A stream is the bytes of its blocks; reading it gives the blocks back, and
their payloads joined in the order of the block numbers give the image, up to padding.
-/

namespace FirmwareSeal

namespace Flash

/-- How many blocks carry `n` bytes. -/
def blockCount (n : Nat) : Nat := (n + 255) / 256

/-- How many blocks carry `n` bytes, in 64-bit arithmetic. -/
def blockCount64 (n : UInt64) : UInt64 :=
  if n % 256 = 0 then n / 256 else n / 256 + 1

/-- The block that carries the piece with a given number, out of `count` pieces. -/
def blockOfPiece (familyId baseAddress : UInt32) (count number : Nat) (piece : Bytes) : Block where
  flags := if familyId = 0 then 0 else familyFlag
  targetAddress := baseAddress + UInt32.ofNat (dataLength * number)
  payloadLength := UInt32.ofNat dataLength
  blockNumber := UInt32.ofNat number
  blockCount := UInt32.ofNat count
  familyId := familyId
  data := Octets.padded 256 piece

/-- The blocks of an image, in order. -/
def blocks (image : Bytes) (familyId baseAddress : UInt32) : List Block :=
  (chunks dataLength image).mapIdx (blockOfPiece familyId baseAddress (blockCount image.length))

/-- The bytes of a list of blocks. -/
def emit (bs : List Block) : Bytes := bs.flatMap Block.toBytes

/-- The stream of an image. -/
def pack (image : Bytes) (familyId baseAddress : UInt32) : Bytes :=
  emit (blocks image familyId baseAddress)

/-- The blocks of a stream; a bad block or an incomplete one anywhere spoils the stream. -/
def parse? (stream : Bytes) : Option (List Block) :=
  (chunks blockLength stream).mapM Block.ofBytes?

/-- The payloads of the blocks, in the order of their numbers; blocks with one number keep the
order of the list. -/
def unpack (bs : List Block) : Bytes :=
  (bs.mergeSort fun a b ↦ a.blockNumber ≤ b.blockNumber).flatMap Block.payload

/-- Some number of blocks is enough exactly if they have room for all the bytes. -/
theorem blockCount_le_iff {n count : Nat} : blockCount n ≤ count ↔ n ≤ 256 * count := by
  simp only [blockCount]
  omega

/-- Only nothing takes no blocks. -/
theorem blockCount_eq_zero_iff {n : Nat} : blockCount n = 0 ↔ n = 0 := by
  rw [← Nat.le_zero, blockCount_le_iff, Nat.mul_zero, Nat.le_zero]

/-- A list of blocks takes 512 bytes for each. -/
theorem length_emit (bs : List Block) : (emit bs).length = 512 * bs.length := by
  induction bs with
  | nil => rfl
  | cons b bs ih =>
    simp only [emit, List.flatMap_cons, List.length_append, Block.length_toBytes,
      List.length_cons] at ih ⊢
    omega

end Flash

end FirmwareSeal
