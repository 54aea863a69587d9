import FirmwareSeal.Bytes.Endian

/-!
# Flash blocks

A UF2 block is 512 bytes that describe themselves: two magic words, six header words, 256 bytes of
data, padding, and a closing magic word. Reading accepts exactly the blocks of this shape whose
payload fits the data; the padding is ignored.
-/

namespace FirmwareSeal

namespace Flash

/-- The first word of a block. -/
def startMagic : UInt32 := 0x0a324655

/-- The second word of a block. -/
def secondMagic : UInt32 := 0x9e5d5157

/-- The last word of a block. -/
def endMagic : UInt32 := 0x0ab16f30

/-- The flag that says that a block names its family. -/
def familyFlag : UInt32 := 0x2000

/-- How many bytes a block takes. -/
def blockLength : Nat := 512

/-- How many bytes of data a block carries. -/
def dataLength : Nat := 256

/-- How many zero bytes stand between the data and the closing magic. -/
def blockPadding : Nat := 220

/-- A block: where its payload goes in flash, and its place among the other blocks. -/
structure Block where
  flags : UInt32
  targetAddress : UInt32
  payloadLength : UInt32
  blockNumber : UInt32
  blockCount : UInt32
  familyId : UInt32
  data : Octets 256
  deriving DecidableEq

namespace Block

/-- The eight words in front of the data. -/
def words (b : Block) : List UInt32 :=
  [startMagic, secondMagic, b.flags, b.targetAddress, b.payloadLength, b.blockNumber,
    b.blockCount, b.familyId]

/-- The bytes of a block. -/
def toBytes (b : Block) : Bytes :=
  b.words.flatMap littleWord ++ b.data.toList ++ zeros blockPadding ++ littleWord endMagic

/-- The block that some bytes stand for: 512 of them, with the three magic words in their places
and a payload that fits. -/
def ofBytes? (raw : Bytes) : Option Block :=
  if h : raw.length = blockLength ∧ wordAt raw 0 = startMagic ∧ wordAt raw 4 = secondMagic ∧
      wordAt raw 508 = endMagic ∧ (wordAt raw 16).toNat ≤ dataLength then
    some {
      flags := wordAt raw 8
      targetAddress := wordAt raw 12
      payloadLength := wordAt raw 16
      blockNumber := wordAt raw 20
      blockCount := wordAt raw 24
      familyId := wordAt raw 28
      data := ⟨(raw.drop 32).take 256, by simp [h.1, blockLength]⟩ }
  else none

/-- The payload: the leading data bytes, as many as the block says and at most all of them. -/
def payload (b : Block) : Bytes := b.data.toList.take b.payloadLength.toNat

/-- Every block takes 512 bytes. -/
@[simp] theorem length_toBytes (b : Block) : b.toBytes.length = 512 := by
  simp [toBytes, words, blockPadding]

/-- A payload is as long as the block says, up to the length of the data. -/
theorem length_payload (b : Block) : b.payload.length = min b.payloadLength.toNat dataLength := by
  simp [payload, dataLength]

end Block

end Flash

end FirmwareSeal
