import FirmwareSeal.Proofs.Flash.Unpacking
import FirmwareSeal.Proofs.Image.Detection

/-!
# From a firmware to flash and back

A sealed image that is packed, read from its stream and unpacked comes back with a few zeros
behind it. The image itself says how long it is, so the zeros are cut off, and what is left
verifies and holds the payload that was sealed.
-/

namespace FirmwareSeal

/-! ## Images that fit the words of both formats -/

/-- An image whose length fits its word has few enough blocks for the block numbers. -/
theorem blockCount_le_of_signedLength_lt {n : Nat} (h : n < UInt32.size) :
    Flash.blockCount (signedHeaderLength + n) ≤ UInt32.size := by
  rw [Flash.blockCount_le_iff]
  simp only [signedHeaderLength, UInt32.size] at *
  omega

/-- The length word of a sealed image tells where the image ends. -/
theorem signedLength_sealedImage (signature : SignatureBytes) {payload : Bytes}
    (options : SealOptions) (h : sealedHeaderLength + payload.length < UInt32.size) :
    signedHeaderLength + (wordAt (sealedImage signature payload options) 144).toNat =
      (sealedImage signature payload options).length := by
  rw [wordAt_sealedImage, UInt32.toNat_ofNat_of_lt' h, length_sealedImage,
    signatureBlockLength_eq, Nat.add_assoc]

/-- Reading a packed image gives blocks that unpack to the image and fewer zeros than a block
carries bytes. -/
theorem exists_padding_of_pack (image : Bytes) (familyId baseAddress : UInt32)
    (h : Flash.blockCount image.length ≤ UInt32.size) :
    ∃ bs, Flash.parse? (Flash.pack image familyId baseAddress) = some bs ∧
      ∃ k < 256, Flash.unpack bs = image ++ zeros k :=
  ⟨_, Flash.parse?_pack image familyId baseAddress, _, Flash.filling_lt image.length,
    Flash.unpack_blocks image familyId baseAddress h⟩

/-! ## Recovery -/

/-- A sealed image whose length fits its word is recovered from its flash stream. The stream is
read and unpacks to the image and fewer than 256 zeros; the word at offset 144 of that tells where
the image ends; and the bytes up to there are the image, hold the payload of the firmware, and
verify under the development key exactly if the signer accepts the signature that it made. -/
theorem image_recovered_from_flash {signer : Signer} {secretKey firmware image : Bytes}
    {options : SealOptions} (familyId baseAddress : UInt32)
    (hseal : sealFirmware signer secretKey firmware options = .ok image)
    (hsize : sealedHeaderLength + (stripEnvelope firmware).length < UInt32.size) :
    ∃ bs n, Flash.parse? (Flash.pack image familyId baseAddress) = some bs ∧
      (∃ k < 256, Flash.unpack bs = image ++ zeros k) ∧
      n = (wordAt (Flash.unpack bs) 144).toNat ∧ 132 + n = image.length ∧
      (Flash.unpack bs).take (132 + n) = image ∧
      stripEnvelope ((Flash.unpack bs).take (132 + n)) = stripEnvelope firmware ∧
      ∃ signature,
        signer.sign secretKey TrustedKey.development.key.toList
          (sealedBytes (stripEnvelope firmware) options) = .ok signature ∧
        verifyImage signer TrustedKey.development.key.toList
            ((Flash.unpack bs).take (132 + n)) =
          signer.verify TrustedKey.development.key.toList
            (sealedBytes (stripEnvelope firmware) options) signature := by
  obtain ⟨signature, hsign, himage⟩ := exists_signature_of_sealFirmware hseal
  have hlength : image.length =
      signedHeaderLength + (sealedHeaderLength + (stripEnvelope firmware).length) := by
    rw [himage, length_sealedImage, signatureBlockLength_eq, Nat.add_assoc]
  have hend : signedHeaderLength + (wordAt image 144).toNat = image.length := by
    rw [himage]
    exact signedLength_sealedImage signature options hsize
  obtain ⟨bs, hparse, k, hk, hunpack⟩ := exists_padding_of_pack image familyId baseAddress
    (hlength ▸ blockCount_le_of_signedLength_lt hsize)
  -- The padding is behind the image, so the length word is the one of the image.
  have hword : wordAt (Flash.unpack bs) 144 = wordAt image 144 := by
    have hin : 144 + 4 ≤ image.length := by
      rw [hlength, sealedHeaderLength, fieldsLength, paddingLength, signedHeaderLength]
      omega
    rw [hunpack, wordAt_append_left hin]
  have htake : (Flash.unpack bs).take (132 + (wordAt image 144).toNat) = image := by
    rw [hunpack]
    exact List.take_left' hend.symm
  refine ⟨bs, (wordAt image 144).toNat, hparse, ⟨k, hk, hunpack⟩, by rw [hword], hend, htake, ?_⟩
  rw [htake]
  refine ⟨(strip_of_sealFirmware hseal).2, signature, hsign, ?_⟩
  rw [himage]
  exact verifyImage_sealedImage signature _ options signer _

/-- A one-byte firmware is recovered from blocks whose addresses wrap around, and verifies. -/
theorem image_recovered_from_flash_of_one_byte :
    ∃ image bs n, sealFirmware (.constant (.zero 64)) [] [7] .release = .ok image ∧
      Flash.parse? (Flash.pack image 0 0xffffff00) = some bs ∧
      (Flash.unpack bs).take (132 + n) = image ∧
      stripEnvelope ((Flash.unpack bs).take (132 + n)) = [7] ∧
      verifyImage (.constant (.zero 64)) TrustedKey.development.key.toList
        ((Flash.unpack bs).take (132 + n)) = .ok () := by
  obtain ⟨image, h⟩ : ∃ image, sealFirmware (.constant (.zero 64)) [] [7] .release = .ok image :=
    ⟨_, rfl⟩
  obtain ⟨bs, n, hparse, -, -, -, htake, hstrip, signature, -, hverify⟩ :=
    image_recovered_from_flash 0 0xffffff00 h (by decide)
  exact ⟨image, bs, n, h, hparse, htake, hstrip, hverify⟩

end FirmwareSeal
