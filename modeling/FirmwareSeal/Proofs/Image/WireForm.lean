import FirmwareSeal.Proofs.Image.Detection

/-!
# The signed image byte by byte

The bootloader expects a fixed row of bytes in front of a payload. Here that row is written down
with numbers and byte strings only, apart from the records of the image: `wireMessage` is what the
signature covers, `wireImage` the whole image. Sealing a firmware gives exactly these bytes around
the signature of exactly that message, and fails only where signing it fails.
-/

namespace FirmwareSeal

/-- The four digits of a number to the base 256, lowest first. -/
def wordDigits (n : Nat) : Bytes :=
  [UInt8.ofNat n, UInt8.ofNat (n / 0x100), UInt8.ofNat (n / 0x10000), UInt8.ofNat (n / 0x1000000)]

/-- The message that is signed for a payload: version 1.0, the magic, the length, the function code,
an unused word, the two versions, a key and a tag for each of the four slots, and 436 zeros in front
of the payload. -/
def wireMessage (payload : Bytes) (options : SealOptions) : Bytes :=
  wordDigits 0x100 ++ "ymuy3oaB".toUTF8.toList ++ wordDigits (636 + payload.length) ++
    wordDigits options.functionCode.toNat ++ wordDigits 0 ++
    options.minSemver.toList ++ options.semver.toList ++
    (TrustedKey.unused.key.toList ++ TrustedKey.unused.tag.toList) ++
    (TrustedKey.production.key.toList ++ TrustedKey.production.tag.toList) ++
    (TrustedKey.beta.key.toList ++ TrustedKey.beta.tag.toList) ++
    (TrustedKey.development.key.toList ++ TrustedKey.development.tag.toList) ++
    List.replicate 436 0 ++ payload

/-- The image that carries a signature of a message: the jump over 768 bytes, the signature, 64
zeros and the message. -/
def wireImage (signature : SignatureBytes) (message : Bytes) : Bytes :=
  wordDigits 0x3000006f ++ signature.toList ++ List.replicate 64 0 ++ message

/-! ## Words -/

/-- A word is written digit by digit. -/
theorem littleWord_eq_wordDigits (w : UInt32) : littleWord w = wordDigits w.toNat := by
  simp only [littleWord, toLittle, wordDigits, Nat.div_div_eq_div_mul]

/-- A number that fits a word is written digit by digit. -/
theorem littleWord_ofNat_eq_wordDigits {n : Nat} (h : n < UInt32.size) :
    littleWord (UInt32.ofNat n) = wordDigits n := by
  rw [littleWord_eq_wordDigits, UInt32.toNat_ofNat_of_lt' h]

/-- The magic is written as the bootloader spells it. -/
theorem littleWord_magicWords_eq_utf8 :
    littleWord magicWords.1 ++ littleWord magicWords.2 = "ymuy3oaB".toUTF8.toList := by
  rw [littleWord_magicWords]
  decide +kernel

/-! ## The message and the image -/

/-- The key table lists a key and a tag for each slot. -/
theorem toList_keyTable :
    keyTable.toList =
      (TrustedKey.unused.key.toList ++ TrustedKey.unused.tag.toList) ++
      (TrustedKey.production.key.toList ++ TrustedKey.production.tag.toList) ++
      (TrustedKey.beta.key.toList ++ TrustedKey.beta.tag.toList) ++
      (TrustedKey.development.key.toList ++ TrustedKey.development.tag.toList) := by
  simp only [keyTable, trustedKeys, TrustedKey.toOctets, Octets.toList_append, List.flatMap_cons,
    List.flatMap_nil, List.append_nil, List.append_assoc]

/-- Sealed bytes are the message of their payload. -/
theorem sealedBytes_eq_wireMessage {payload : Bytes} (options : SealOptions)
    (h : sealedHeaderLength + payload.length < UInt32.size) :
    sealedBytes payload options = wireMessage payload options := by
  have hversion : littleWord sealedVersion = wordDigits 0x100 := rfl
  have hlength : littleWord (UInt32.ofNat (sealedHeaderLength + payload.length)) =
      wordDigits (636 + payload.length) := littleWord_ofNat_eq_wordDigits h
  have hwords : (SealedRecord.ofPayload payload options).words.flatMap littleWord =
      wordDigits 0x100 ++ "ymuy3oaB".toUTF8.toList ++ wordDigits (636 + payload.length) ++
        wordDigits options.functionCode.toNat ++ wordDigits 0 := by
    rw [← hversion, ← littleWord_magicWords_eq_utf8, ← hlength, ← littleWord_eq_wordDigits]
    simp only [SealedRecord.words, SealedRecord.ofPayload, List.flatMap_cons, List.flatMap_nil,
      List.append_assoc]
    rfl
  rw [sealedBytes, SealedRecord.toBytes_eq, hwords]
  simp only [SealedRecord.ofPayload, toList_keyTable, wireMessage, zeros, paddingLength,
    List.append_assoc]

/-- Signing puts 132 bytes in front of the message. -/
theorem toBytes_ofSignature_eq_wireImage (signature : SignatureBytes) (message : Bytes) :
    (SignedImage.ofSignature signature message).toBytes = wireImage signature message := by
  have hzeros : littleWord 0 ++ (Octets.zero 60).toList = List.replicate 64 0 := rfl
  rw [SignedImage.toBytes_eq, wireImage, ← hzeros]
  simp only [SignedImage.ofSignature, littleWord_eq_wordDigits, List.append_assoc]
  rfl

/-! ## Sealing -/

/-- A firmware whose payload fits the length word is sealed into the wire form, with the signature
of its message, unless the message cannot be signed; then sealing fails for the same reason. Either
way sealing does what signing and wrapping the sealed payload does. -/
theorem sealed_firmware_has_wire_form (signer : Signer) (secretKey firmware : Bytes)
    (options : SealOptions) (h : 636 + (stripEnvelope firmware).length < 4294967296) :
    (∀ e, sealFirmware signer secretKey firmware options = .error e ↔
      signer.sign secretKey TrustedKey.development.key.toList
        (wireMessage (stripEnvelope firmware) options) = .error e) ∧
    (∀ image, sealFirmware signer secretKey firmware options = .ok image ↔
      ∃ signature, signer.sign secretKey TrustedKey.development.key.toList
          (wireMessage (stripEnvelope firmware) options) = .ok signature ∧
        image = wireImage signature (wireMessage (stripEnvelope firmware) options)) ∧
    (wireMessage (stripEnvelope firmware) options).length =
      636 + (stripEnvelope firmware).length ∧
    sealFirmware signer secretKey firmware options =
      signAndWrap signer secretKey TrustedKey.development.key.toList
        (sealedBytes (stripEnvelope firmware) options) := by
  have hmessage : sealedBytes (stripEnvelope firmware) options =
      wireMessage (stripEnvelope firmware) options := sealedBytes_eq_wireMessage options h
  have hseal := sealFirmware_eq_signAndWrap signer secretKey firmware options
  refine ⟨?_, ?_, ?_, hseal⟩
  · intro e
    rw [hseal, signAndWrap_eq_error_iff, hmessage]
  · intro image
    rw [hseal, signAndWrap_eq_ok_iff, hmessage]
    simp only [toBytes_ofSignature_eq_wireImage]
  · rw [← hmessage]
    exact length_sealedBytes _ options

/-- A firmware of one byte that is wrapped already is sealed again around the digest that stands
for the signature of its message, and without a key it is refused. -/
theorem sealed_firmware_has_wire_form_of_one_byte :
    ∃ firmware, isWrapped firmware = true ∧ stripEnvelope firmware = [7] ∧
      sealFirmware .digest (zeros 32) firmware .release =
        .ok (wireImage (sha512 (TrustedKey.development.key.toList ++ wireMessage [7] .release))
          (wireMessage [7] .release)) ∧
      sealFirmware .digest [] firmware .release = .error (.keyLength .secretHalf 0) := by
  obtain ⟨firmware, h⟩ : ∃ image, sealFirmware (.constant (.zero 64)) [] [7] {} = .ok image :=
    ⟨_, rfl⟩
  obtain ⟨hwrapped, hstrip⟩ := strip_of_sealFirmware h
  have hpayload : stripEnvelope firmware = [7] := hstrip
  have hsize : 636 + (stripEnvelope firmware).length < 4294967296 := by
    rw [hpayload]
    decide
  obtain ⟨-, hok, -⟩ := sealed_firmware_has_wire_form .digest (zeros 32) firmware .release hsize
  obtain ⟨herror, -⟩ := sealed_firmware_has_wire_form .digest [] firmware .release hsize
  rw [hpayload] at hok
  exact ⟨firmware, hwrapped, hpayload, (hok _).mpr ⟨_, rfl, rfl⟩, (herror _).mpr rfl⟩

end FirmwareSeal
