import FirmwareSeal.Bytes.Endian
import FirmwareSeal.Image.Options
import FirmwareSeal.Key.Trusted

/-!
# The sealed record

A sealed record is a fixed header and a payload: six words, two semantic versions and the key
table, then zeros up to 636 bytes, then the payload. Its bytes are the message that is signed.

The magic is spelled with its two four-letter halves read from the top byte and written from the
bottom byte, so on the wire each half appears reversed.
-/

namespace FirmwareSeal

/-- The magic as people spell it: `yumyBao3`. -/
def magicText : Octets 8 := ⟨[0x79, 0x75, 0x6d, 0x79, 0x42, 0x61, 0x6f, 0x33], rfl⟩

/-- The magic as the bootloader expects it in an image: `ymuy3oaB`. -/
def magicWire : Octets 8 := ⟨[0x79, 0x6d, 0x75, 0x79, 0x33, 0x6f, 0x61, 0x42], rfl⟩

/-- The two halves of the magic as words. -/
def magicWords : UInt32 × UInt32 :=
  (UInt32.ofNat (ofBig (magicText.toList.take 4)), UInt32.ofNat (ofBig (magicText.toList.drop 4)))

/-- The version word of sealed records. -/
def sealedVersion : UInt32 := 0x100

/-- How many bytes the fixed fields take. -/
def fieldsLength : Nat := 200

/-- How many zero bytes follow the fixed fields. -/
def paddingLength : Nat := 436

/-- How many bytes precede the payload. -/
def sealedHeaderLength : Nat := fieldsLength + paddingLength

/-- A header with the payload it describes. -/
structure SealedRecord where
  version : UInt32
  magic : UInt32 × UInt32
  /-- The length of the whole record in bytes. -/
  signedLength : UInt32
  functionCode : UInt32
  reserved : UInt32
  minSemver : Octets 16
  semver : Octets 16
  keyTable : Octets 144
  payload : Bytes
  deriving DecidableEq

namespace SealedRecord

/-- The record that seals a payload. -/
def ofPayload (payload : Bytes) (options : SealOptions) : SealedRecord where
  version := sealedVersion
  magic := magicWords
  signedLength := UInt32.ofNat (sealedHeaderLength + payload.length)
  functionCode := options.functionCode
  reserved := 0
  minSemver := options.minSemver
  semver := options.semver
  keyTable := FirmwareSeal.keyTable
  payload := payload

/-- The six words at the start of a record. -/
def words (r : SealedRecord) : List UInt32 :=
  [r.version, r.magic.1, r.magic.2, r.signedLength, r.functionCode, r.reserved]

/-- The bytes of the fixed fields. -/
def fields (r : SealedRecord) : Octets 200 :=
  ⟨r.words.flatMap littleWord ++ r.minSemver.toList ++ r.semver.toList ++ r.keyTable.toList,
    by simp [words]⟩

/-- The bytes of a record: fields, zeros, payload. -/
def toBytes (r : SealedRecord) : Bytes :=
  r.fields.toList ++ zeros paddingLength ++ r.payload

/-- A record is as long as its header and its payload. -/
theorem length_toBytes (r : SealedRecord) :
    r.toBytes.length = sealedHeaderLength + r.payload.length := by
  simp [toBytes, sealedHeaderLength, fieldsLength, Nat.add_assoc]

end SealedRecord

/-- The bytes of a payload sealed with some options. -/
def sealedBytes (payload : Bytes) (options : SealOptions) : Bytes :=
  (SealedRecord.ofPayload payload options).toBytes

/-- Writing the words of the magic gives its wire form. -/
theorem littleWord_magicWords :
    littleWord magicWords.1 ++ littleWord magicWords.2 = magicWire.toList := by
  decide

end FirmwareSeal
