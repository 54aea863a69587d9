import FirmwareSeal.Proofs.Image.Resealing
import FirmwareSeal.Proofs.Recovery
import Mathlib.Order.Bounds.Basic

/-!
# Sealing what comes back from flash

Flash hands an image back with zeros up to the end of its last block. Sealing that takes the zeros
for a part of the payload, so the image changes once. A signature block fills whole flash blocks;
the payload with its zeros does so too, so nothing is filled in any more, and from the second image
on every cycle of packing, reading, unpacking and sealing gives the same bytes.
-/

namespace FirmwareSeal

namespace Flash

/-! ## Filling up -/

/-- The zeros that are filled in are the fewest that make full blocks. -/
theorem filling_eq_of_isLeast {n padding : Nat} (h : IsLeast {k | dataLength ∣ n + k} padding) :
    dataLength * blockCount n - n = padding := by
  have hdvd : dataLength ∣ n + padding := h.1
  have hle := le_dataLength_mul_blockCount n
  have hfewest : padding ≤ dataLength * blockCount n - n := by
    apply h.2
    change dataLength ∣ n + (dataLength * blockCount n - n)
    rw [Nat.add_sub_cancel' hle]
    exact Nat.dvd_mul_right _ _
  -- Both counts are below a block and lead to full blocks.
  have hlt := filling_lt n
  simp only [dataLength, blockCount] at *
  omega

/-- Full blocks in front change nothing about the zeros that are filled in. -/
theorem filling_add_of_dvd {m : Nat} (h : dataLength ∣ m) (n : Nat) :
    dataLength * blockCount (m + n) - (m + n) = dataLength * blockCount n - n := by
  simp only [dataLength, blockCount] at *
  omega

/-- An image of full blocks is not filled up. -/
theorem filled_of_dvd {image : Bytes} (h : dataLength ∣ image.length) : filled image = image := by
  have hnone := filling_add_of_dvd h 0
  have hzero : dataLength * blockCount 0 - 0 = 0 := rfl
  rw [Nat.add_zero, hzero] at hnone
  rw [filled, hnone]
  exact List.append_nil image

/-! ## Into flash and back -/

/-- What comes back of an image that is packed, read from its stream and unpacked. -/
def readBack (familyId baseAddress : UInt32) (image : Bytes) : Option Bytes :=
  (parse? (pack image familyId baseAddress)).map unpack

/-- An image comes back filled up. -/
theorem readBack_eq_filled (familyId baseAddress : UInt32) {image : Bytes}
    (h : blockCount image.length ≤ UInt32.size) :
    readBack familyId baseAddress image = some (filled image) := by
  rw [readBack, parse?_pack, Option.map_some, unpack_blocks image familyId baseAddress h]

end Flash

open Flash

/-! ## Sealed images that come back -/

/-- A signature block fills whole flash blocks. -/
theorem dataLength_dvd_signatureBlockLength : dataLength ∣ signatureBlockLength := by decide

section

variable (signature : SignatureBytes) (payload : Bytes) (options : SealOptions)

/-- A sealed image whose length fits its word comes back filled up. -/
theorem readBack_sealedImage (familyId baseAddress : UInt32)
    (h : sealedHeaderLength + payload.length < UInt32.size) :
    readBack familyId baseAddress (sealedImage signature payload options) =
      some (filled (sealedImage signature payload options)) := by
  apply readBack_eq_filled
  rw [length_sealedImage, signatureBlockLength_eq, Nat.add_assoc]
  exact blockCount_le_of_signedLength_lt h

/-- Stripping a filled image gives the filled payload. -/
theorem stripEnvelope_filled_sealedImage :
    stripEnvelope (filled (sealedImage signature payload options)) = filled payload := by
  have hlength : signatureBlockLength ≤ (sealedImage signature payload options).length := by
    rw [length_sealedImage]
    exact Nat.le_add_right _ _
  rw [filled, length_sealedImage, filling_add_of_dvd dataLength_dvd_signatureBlockLength,
    stripEnvelope_append hlength, stripEnvelope_sealedImage]
  rfl

/-- The image of a filled payload needs no filling. -/
theorem filled_sealedImage_filled :
    filled (sealedImage signature (filled payload) options) =
      sealedImage signature (filled payload) options := by
  apply filled_of_dvd
  rw [length_sealedImage, length_filled]
  exact Nat.dvd_add dataLength_dvd_signatureBlockLength (Nat.dvd_mul_right _ _)

end

/-- The image of a firmware whose payload is filled comes back as it is. -/
theorem readBack_of_stripEnvelope_eq_filled {signer : Signer}
    {secretKey firmware payload image : Bytes} {options : SealOptions}
    (familyId baseAddress : UInt32)
    (hseal : sealFirmware signer secretKey firmware options = .ok image)
    (hpayload : stripEnvelope firmware = filled payload)
    (hsize : sealedHeaderLength + (filled payload).length < UInt32.size) :
    readBack familyId baseAddress image = some image := by
  obtain ⟨signature, -, rfl⟩ := exists_signature_of_sealFirmware hseal
  rw [hpayload, readBack_sealedImage _ _ _ _ _ hsize, filled_sealedImage_filled]

/-! ## Cycles -/

namespace SealRequest

/-- An image that a request gave is given again when the request is served on it. -/
theorem answer_of_answer_ok {request : SealRequest} {firmware image : Bytes}
    (h : request.answer firmware = .ok image) : request.answer image = .ok image := by
  have hstrip : stripEnvelope image = stripEnvelope firmware := (strip_of_sealFirmware h).2
  rw [request.answer_congr hstrip, h]

/-- What a request makes of an image that went into flash: the image is packed, read, unpacked and
sealed again. Nothing comes out if the stream is not read or the request fails. -/
def cycle (request : SealRequest) (familyId baseAddress : UInt32) (image : Bytes) : Option Bytes :=
  (readBack familyId baseAddress image).bind fun back ↦ (request.answer back).toOption

/-- What comes out of a number of cycles, one after the other. -/
def cycles (request : SealRequest) (familyId baseAddress : UInt32) : Nat → Bytes → Option Bytes
  | 0, image => some image
  | n + 1, image =>
    (request.cycle familyId baseAddress image).bind (request.cycles familyId baseAddress n)

/-- A cycle gives the image of what comes back. -/
theorem cycle_eq_some {request : SealRequest} {familyId baseAddress : UInt32}
    {image back next : Bytes} (hback : readBack familyId baseAddress image = some back)
    (hnext : request.answer back = .ok next) :
    request.cycle familyId baseAddress image = some next := by
  rw [cycle, hback, Option.bind_some, hnext]
  rfl

/-- An image that a cycle gives back is given back by any number of cycles. -/
theorem cycles_of_cycle_eq {request : SealRequest} {familyId baseAddress : UInt32} {image : Bytes}
    (h : request.cycle familyId baseAddress image = some image) (n : Nat) :
    request.cycles familyId baseAddress n image = some image := by
  induction n with
  | zero => rfl
  | succ n ih => rw [cycles, h, Option.bind_some, ih]

end SealRequest

/-- What comes back of a sealed image is sealed as its payload with the fewest zeros that make full
blocks. If that can be signed, the image comes back as it is and is sealed as it is, so that one
cycle or more all give this same image. -/
theorem flash_cycle_stabilises_after_one_round {signer : Signer} {secretKey firmware image : Bytes}
    {options : SealOptions} {padding : Nat} (familyId baseAddress : UInt32)
    (hseal : sealFirmware signer secretKey firmware options = .ok image)
    (hpadding : IsLeast {k | 256 ∣ (stripEnvelope firmware).length + k} padding)
    (hsize : 636 + ((stripEnvelope firmware).length + padding) < 4294967296) :
    ∃ back, readBack familyId baseAddress image = some back ∧
      sealFirmware signer secretKey back options =
        signAndWrap signer secretKey TrustedKey.development.key.toList
          (sealedBytes (stripEnvelope firmware ++ zeros padding) options) ∧
      ∀ stable, sealFirmware signer secretKey back options = .ok stable →
        readBack familyId baseAddress stable = some stable ∧
        sealFirmware signer secretKey stable options = .ok stable ∧
        ∀ n, SealRequest.cycles ⟨signer, secretKey, options⟩ familyId baseAddress (n + 1) image =
          some stable := by
  obtain ⟨signature, -, rfl⟩ := exists_signature_of_sealFirmware hseal
  have hfilled : filled (stripEnvelope firmware) = stripEnvelope firmware ++ zeros padding := by
    rw [filled, filling_eq_of_isLeast hpadding]
  have hfits : sealedHeaderLength + (stripEnvelope firmware).length < UInt32.size :=
    Nat.lt_of_le_of_lt (Nat.add_le_add_left (Nat.le_add_right _ padding) _) hsize
  have hback := readBack_sealedImage signature _ options familyId baseAddress hfits
  have hstrip := stripEnvelope_filled_sealedImage signature (stripEnvelope firmware) options
  refine ⟨_, hback, ?_, ?_⟩
  · rw [sealFirmware_eq_signAndWrap, hstrip, hfilled]
  · intro stable hstable
    have hagain : readBack familyId baseAddress stable = some stable := by
      apply readBack_of_stripEnvelope_eq_filled familyId baseAddress hstable hstrip
      rw [hfilled, List.length_append, length_zeros]
      exact hsize
    let request : SealRequest := ⟨signer, secretKey, options⟩
    have hanswer : request.answer stable = .ok stable := SealRequest.answer_of_answer_ok hstable
    have hfirst : request.cycle familyId baseAddress _ = some stable :=
      SealRequest.cycle_eq_some hback hstable
    have hnext : request.cycle familyId baseAddress stable = some stable :=
      SealRequest.cycle_eq_some hagain hanswer
    refine ⟨hagain, hanswer, ?_⟩
    intro n
    rw [SealRequest.cycles, hfirst, Option.bind_some]
    exact SealRequest.cycles_of_cycle_eq hnext n

/-- A firmware of one byte gets 255 zeros in the first cycle and nothing in the next two. -/
theorem flash_cycle_stabilises_after_one_round_of_one_byte :
    ∃ image stable, sealFirmware (.constant (.zero 64)) [] [7] .release = .ok image ∧
      signAndWrap (.constant (.zero 64)) [] TrustedKey.development.key.toList
        (sealedBytes ([7] ++ zeros 255) .release) = .ok stable ∧
      readBack 0 0xffffff00 stable = some stable ∧
      SealRequest.cycles ⟨.constant (.zero 64), [], .release⟩ 0 0xffffff00 3 image =
        some stable := by
  obtain ⟨image, h⟩ : ∃ image, sealFirmware (.constant (.zero 64)) [] [7] .release = .ok image :=
    ⟨_, rfl⟩
  have hpadding : IsLeast {k | 256 ∣ (stripEnvelope [7]).length + k} 255 := by
    constructor
    · change 256 ∣ 1 + 255
      decide
    · intro k hk
      have hdvd : 256 ∣ 1 + k := hk
      omega
  obtain ⟨back, -, hseal, hstable⟩ :=
    flash_cycle_stabilises_after_one_round 0 0xffffff00 h hpadding (by decide)
  obtain ⟨stable, hsigned⟩ : ∃ stable, signAndWrap (.constant (.zero 64)) []
      TrustedKey.development.key.toList (sealedBytes ([7] ++ zeros 255) .release) = .ok stable :=
    ⟨_, rfl⟩
  obtain ⟨hback, -, hcycles⟩ := hstable stable (hseal.trans hsigned)
  exact ⟨image, stable, h, hsigned, hback, hcycles 2⟩

end FirmwareSeal
