import FirmwareSeal.Image.Sealed
import FirmwareSeal.Signature.Signer

/-!
# The signed image

A signed image starts with a jump over the signature block, followed by the signature, an unused
length and an unused area, 132 bytes in all; the sealed bytes that the signature covers are the
rest. Verifying an image looks at the signature and the sealed bytes only.
-/

namespace FirmwareSeal

/-- The instruction that jumps over the signature block, to the payload. -/
def jumpWord : UInt32 := 0x3000006f

/-- How many bytes precede the sealed bytes. -/
def signedHeaderLength : Nat := 132

/-- Where the sealed magic stands in a signed image. -/
def magicOffset : Nat := signedHeaderLength + 4

/-- How many bytes precede the payload of a signed image. -/
def signatureBlockLength : Nat := 768

/-- The two headers fill the signature block. -/
theorem signatureBlockLength_eq :
    signatureBlockLength = signedHeaderLength + sealedHeaderLength := rfl

/-- A signature with the bytes that it covers. -/
structure SignedImage where
  jump : UInt32
  signature : SignatureBytes
  /-- Zero in images made here. -/
  aadLength : UInt32
  /-- Zero in images made here. -/
  aad : Octets 60
  sealedData : Bytes
  deriving DecidableEq

namespace SignedImage

/-- The bytes in front of the sealed bytes. -/
def header (image : SignedImage) : Octets 132 :=
  ⟨littleWord image.jump ++ image.signature.toList ++ littleWord image.aadLength ++
    image.aad.toList, by simp⟩

/-- The bytes of a signed image. -/
def toBytes (image : SignedImage) : Bytes := image.header.toList ++ image.sealedData

/-- Signs sealed bytes under a key pair. -/
def signWith (signer : Signer) (secretKey publicKey sealedData : Bytes) :
    Except SigningError SignedImage := do
  let signature ← signer.sign secretKey publicKey sealedData
  return { jump := jumpWord, signature, aadLength := 0, aad := Octets.zero 60, sealedData }

/-- Signs sealed bytes for the development key slot. -/
def sign (signer : Signer) (secretKey sealedData : Bytes) : Except SigningError SignedImage :=
  signWith signer secretKey TrustedKey.development.key.toList sealedData

/-- A signed image is as long as its header and the sealed bytes. -/
theorem length_toBytes (image : SignedImage) :
    image.toBytes.length = signedHeaderLength + image.sealedData.length := by
  simp [toBytes, signedHeaderLength]

end SignedImage

/-- Signs sealed bytes under a key pair and gives the bytes of the image. -/
def signAndWrap (signer : Signer) (secretKey publicKey sealedData : Bytes) :
    Except SigningError Bytes :=
  (SignedImage.signWith signer secretKey publicKey sealedData).map SignedImage.toBytes

/-- Checks the signature in an image against the bytes behind the header. An image too short for
the header fails before any key is looked at. -/
def verifyImage (signer : Signer) (publicKey image : Bytes) : Except SigningError Unit :=
  if h : signedHeaderLength ≤ image.length then
    signer.verify publicKey (image.drop signedHeaderLength)
      ⟨(image.drop 4).take 64, by simp [signedHeaderLength] at h ⊢; omega⟩
  else
    .error .verification

end FirmwareSeal
