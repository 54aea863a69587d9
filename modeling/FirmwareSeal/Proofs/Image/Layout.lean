import FirmwareSeal.Image.Firmware
import FirmwareSeal.Proofs.Bytes

/-!
# Where the fields of an image stand

Reading a sealed record or a signed image at the offset of a field gives the field. Signing puts
the signature into one fixed frame, so a signed image is known from its signature and the bytes
that the signature covers.
-/

namespace FirmwareSeal

/-! ## The sealed record -/

namespace SealedRecord

/-- The bytes of a record, cut behind its words. -/
theorem toBytes_eq (r : SealedRecord) :
    r.toBytes = r.words.flatMap littleWord ++ (r.minSemver.toList ++ (r.semver.toList ++
      (r.keyTable.toList ++ (zeros paddingLength ++ r.payload)))) := by
  simp only [toBytes, fields, List.append_assoc]

/-- The words of a record stand at the multiples of four. -/
theorem wordAt_toBytes (r : SealedRecord) (i : Nat) (hi : i < r.words.length) :
    wordAt r.toBytes (4 * i) = r.words[i] := by
  rw [toBytes_eq]
  exact wordAt_flatMap_littleWord r.words _ i hi

/-- The length word of a record stands at offset 12. -/
theorem wordAt_toBytes_signedLength (r : SealedRecord) : wordAt r.toBytes 12 = r.signedLength :=
  wordAt_toBytes r 3 (by decide : 3 < 6)

/-- The magic takes eight bytes behind the version word. -/
theorem take_drop_toBytes_magic (r : SealedRecord) :
    (r.toBytes.drop 4).take 8 = littleWord r.magic.1 ++ littleWord r.magic.2 := by
  have he : r.toBytes = littleWord r.version ++ ((littleWord r.magic.1 ++ littleWord r.magic.2) ++
      (r.toBytes.drop 12)) := by
    rw [toBytes_eq]
    simp only [words, List.flatMap_cons, List.append_assoc]
    rfl
  rw [he, List.drop_left' (length_littleWord _)]
  exact List.take_left' (by simp)

/-- The payload follows the header. -/
theorem drop_toBytes (r : SealedRecord) : r.toBytes.drop sealedHeaderLength = r.payload := by
  unfold toBytes
  exact List.drop_left' (by simp [sealedHeaderLength, fieldsLength])

end SealedRecord

/-- Sealed bytes are as long as the header and the payload. -/
theorem length_sealedBytes (payload : Bytes) (options : SealOptions) :
    (sealedBytes payload options).length = sealedHeaderLength + payload.length :=
  (SealedRecord.ofPayload payload options).length_toBytes

/-! ## The signed image -/

namespace SignedImage

/-- The bytes of an image, field by field. -/
theorem toBytes_eq (image : SignedImage) :
    image.toBytes = littleWord image.jump ++ (image.signature.toList ++
      (littleWord image.aadLength ++ (image.aad.toList ++ image.sealedData))) := by
  simp only [toBytes, header, List.append_assoc]

/-- The jump word comes first. -/
theorem take_toBytes_jump (image : SignedImage) :
    image.toBytes.take 4 = littleWord image.jump := by
  rw [toBytes_eq]
  exact List.take_left' (length_littleWord _)

/-- The signature follows the jump word. -/
theorem take_drop_toBytes_signature (image : SignedImage) :
    (image.toBytes.drop 4).take 64 = image.signature.toList := by
  rw [toBytes_eq, List.drop_left' (length_littleWord _)]
  exact List.take_left' image.signature.length_toList

/-- The sealed bytes follow the header. -/
theorem drop_toBytes (image : SignedImage) :
    image.toBytes.drop signedHeaderLength = image.sealedData := by
  unfold toBytes
  exact List.drop_left' image.header.length_toList

/-- Behind the header an image is read as the sealed bytes are. -/
theorem wordAt_toBytes_add (image : SignedImage) (offset : Nat) :
    wordAt image.toBytes (signedHeaderLength + offset) = wordAt image.sealedData offset := by
  have hl : image.header.toList.length = signedHeaderLength := image.header.length_toList
  rw [toBytes, ← hl]
  exact wordAt_append_right _ _ _

/-- The image that signing makes of a signature and the bytes it covers. -/
def ofSignature (signature : SignatureBytes) (sealedData : Bytes) : SignedImage where
  jump := jumpWord
  signature := signature
  aadLength := 0
  aad := Octets.zero 60
  sealedData := sealedData

/-- Signing puts the signature, if there is one, into the image. -/
theorem signWith_eq_map (signer : Signer) (secretKey publicKey sealedData : Bytes) :
    signWith signer secretKey publicKey sealedData =
      (signer.sign secretKey publicKey sealedData).map (ofSignature · sealedData) := by
  unfold signWith
  cases signer.sign secretKey publicKey sealedData with
  | error e => rfl
  | ok signature => rfl

end SignedImage

/-- Verifying the bytes of an image checks its signature against its sealed bytes. -/
theorem verifyImage_toBytes (signer : Signer) (publicKey : Bytes) (image : SignedImage) :
    verifyImage signer publicKey image.toBytes =
      signer.verify publicKey image.sealedData image.signature := by
  have hl : signedHeaderLength ≤ image.toBytes.length := by
    rw [SignedImage.length_toBytes]
    exact Nat.le_add_right _ _
  unfold verifyImage
  rw [dif_pos hl, image.drop_toBytes]
  congr 1
  exact Octets.ext image.take_drop_toBytes_signature

/-! ## Signing and sealing -/

/-- The bytes of an image that signing makes. -/
theorem signAndWrap_eq_map (signer : Signer) (secretKey publicKey sealedData : Bytes) :
    signAndWrap signer secretKey publicKey sealedData =
      (signer.sign secretKey publicKey sealedData).map fun signature ↦
        (SignedImage.ofSignature signature sealedData).toBytes := by
  rw [signAndWrap, SignedImage.signWith_eq_map]
  cases signer.sign secretKey publicKey sealedData with
  | error e => rfl
  | ok signature => rfl

/-- Signing and wrapping gives the images that carry the signature of the sealed bytes. -/
theorem signAndWrap_eq_ok_iff {signer : Signer} {secretKey publicKey sealedData image : Bytes} :
    signAndWrap signer secretKey publicKey sealedData = .ok image ↔
      ∃ signature, signer.sign secretKey publicKey sealedData = .ok signature ∧
        image = (SignedImage.ofSignature signature sealedData).toBytes := by
  rw [signAndWrap_eq_map]
  cases signer.sign secretKey publicKey sealedData with
  | error e => simp only [Except.map, reduceCtorEq, false_and, exists_false]
  | ok signature => simp only [Except.map, Except.ok.injEq, exists_eq_left', eq_comm]

/-- Signing and wrapping fails only where signing fails, and for the same reason. -/
theorem signAndWrap_eq_error_iff {signer : Signer} {secretKey publicKey sealedData : Bytes}
    {e : SigningError} :
    signAndWrap signer secretKey publicKey sealedData = .error e ↔
      signer.sign secretKey publicKey sealedData = .error e := by
  rw [signAndWrap_eq_map]
  cases signer.sign secretKey publicKey sealedData with
  | error e' => simp only [Except.map, Except.error.injEq]
  | ok signature => simp only [Except.map, reduceCtorEq]

/-- Every image comes from a signature of its sealed bytes. -/
theorem exists_signature_of_signAndWrap {signer : Signer}
    {secretKey publicKey sealedData image : Bytes}
    (h : signAndWrap signer secretKey publicKey sealedData = .ok image) :
    ∃ signature, signer.sign secretKey publicKey sealedData = .ok signature ∧
      image = (SignedImage.ofSignature signature sealedData).toBytes :=
  signAndWrap_eq_ok_iff.mp h

/-- Sealing a firmware signs its payload, sealed with the options, for the development key. -/
theorem sealFirmware_eq_signAndWrap (signer : Signer) (secretKey firmware : Bytes)
    (options : SealOptions) :
    sealFirmware signer secretKey firmware options =
      signAndWrap signer secretKey TrustedKey.development.key.toList
        (sealedBytes (stripEnvelope firmware) options) := rfl

/-! ## The image of a sealed payload -/

/-- The bytes of the image in which a signature covers a payload, sealed with some options. -/
def sealedImage (signature : SignatureBytes) (payload : Bytes) (options : SealOptions) : Bytes :=
  (SignedImage.ofSignature signature (sealedBytes payload options)).toBytes

/-- Sealing gives the image with the signature of the sealed payload. -/
theorem exists_signature_of_sealFirmware {signer : Signer} {secretKey firmware image : Bytes}
    {options : SealOptions} (h : sealFirmware signer secretKey firmware options = .ok image) :
    ∃ signature, signer.sign secretKey TrustedKey.development.key.toList
        (sealedBytes (stripEnvelope firmware) options) = .ok signature ∧
      image = sealedImage signature (stripEnvelope firmware) options :=
  exists_signature_of_signAndWrap h

section

variable (signature : SignatureBytes) (payload : Bytes) (options : SealOptions)

/-- The image is as long as the signature block and the payload. -/
theorem length_sealedImage :
    (sealedImage signature payload options).length = signatureBlockLength + payload.length := by
  rw [sealedImage, SignedImage.length_toBytes, SignedImage.ofSignature, length_sealedBytes,
    ← Nat.add_assoc]
  rfl

/-- The image says at offset 144 how many bytes are signed. -/
theorem wordAt_sealedImage :
    wordAt (sealedImage signature payload options) 144 =
      UInt32.ofNat (sealedHeaderLength + payload.length) :=
  calc
    _ = wordAt (sealedBytes payload options) 12 :=
      (SignedImage.ofSignature signature (sealedBytes payload options)).wordAt_toBytes_add 12
    _ = (SealedRecord.ofPayload payload options).signedLength :=
      SealedRecord.wordAt_toBytes_signedLength _

/-- Verifying the image checks the signature against the sealed payload. -/
theorem verifyImage_sealedImage (signer : Signer) (publicKey : Bytes) :
    verifyImage signer publicKey (sealedImage signature payload options) =
      signer.verify publicKey (sealedBytes payload options) signature :=
  verifyImage_toBytes signer publicKey (.ofSignature signature (sealedBytes payload options))

end

end FirmwareSeal
