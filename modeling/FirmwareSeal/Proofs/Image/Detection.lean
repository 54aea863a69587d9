import FirmwareSeal.Proofs.Image.Layout
import Mathlib.Logic.Function.Iterate

/-!
# Detecting a signature block

The detector looks at two places of an image, and the encoders write the jump word and the magic
to exactly these places. So an encoded image counts as wrapped if and only if it has the right
jump word and the right magic, and stripping it gives the payload. A payload that was wrapped
several times is recovered by stripping as often.
-/

namespace FirmwareSeal

/-! ## Injectivity of the magic -/

/-- Only the two halves of the magic are written as the wire form. -/
theorem littleWord_append_eq_magicWire_iff (a b : UInt32) :
    littleWord a ++ littleWord b = magicWire.toList ↔ (a, b) = magicWords := by
  rw [← littleWord_magicWords]
  constructor
  · intro h
    have hl : (littleWord a).length = (littleWord magicWords.1).length := by
      rw [length_littleWord, length_littleWord]
    obtain ⟨ha, hb⟩ := List.append_inj h hl
    exact Prod.ext (littleWord_inj ha) (littleWord_inj hb)
  · intro h
    rw [← h]

/-! ## The detector on encoded images -/

/-- The detector compares the first four bytes and eight bytes at the place of the magic. -/
theorem isWrapped_iff (image : Bytes) :
    isWrapped image = true ↔
      image.take 4 = littleWord jumpWord ∧ (image.drop magicOffset).take 8 = magicWire.toList := by
  simp only [isWrapped, Bool.and_eq_true, beq_iff_eq]

/-- The detector does not look at what is appended behind the magic. -/
theorem isWrapped_append {image : Bytes} (h : magicOffset + 8 ≤ image.length) (rest : Bytes) :
    isWrapped (image ++ rest) = isWrapped image := by
  have hjump : 4 ≤ image.length := Nat.le_trans (by decide) h
  have hmagic : 8 ≤ (image.drop magicOffset).length := by
    rw [List.length_drop]
    omega
  unfold isWrapped
  rw [List.take_append_of_le_length hjump, List.drop_append_of_le_length (by omega),
    List.take_append_of_le_length hmagic]

/-- What is appended behind a signature block stays behind the payload. -/
theorem stripEnvelope_append {image : Bytes} (h : signatureBlockLength ≤ image.length)
    (rest : Bytes) : stripEnvelope (image ++ rest) = stripEnvelope image ++ rest := by
  have hw : isWrapped (image ++ rest) = isWrapped image :=
    isWrapped_append (Nat.le_trans (by decide) h) rest
  cases himage : isWrapped image with
  | true =>
    rw [stripEnvelope_of_isWrapped (hw.trans himage), stripEnvelope_of_isWrapped himage,
      List.drop_append_of_le_length h]
  | false =>
    rw [stripEnvelope_of_not_isWrapped (hw.trans himage), stripEnvelope_of_not_isWrapped himage]

namespace SignedImage

/-- The detector finds the jump word of an image and the magic of its sealed bytes. -/
theorem isWrapped_toBytes_iff (image : SignedImage) :
    isWrapped image.toBytes = true ↔
      image.jump = jumpWord ∧ (image.sealedData.drop 4).take 8 = magicWire.toList := by
  have hd : image.toBytes.drop magicOffset = image.sealedData.drop 4 := by
    rw [magicOffset, ← List.drop_drop, drop_toBytes]
  rw [isWrapped_iff, take_toBytes_jump, hd]
  constructor
  · rintro ⟨hj, hm⟩
    exact ⟨littleWord_inj hj, hm⟩
  · rintro ⟨hj, hm⟩
    exact ⟨congrArg littleWord hj, hm⟩

/-- An image around a sealed record counts as wrapped if its jump word and magic are right,
whatever the other fields and the payload hold. -/
theorem isWrapped_toBytes_of_record {image : SignedImage} (record : SealedRecord)
    (h : image.sealedData = record.toBytes) :
    isWrapped image.toBytes = true ↔ image.jump = jumpWord ∧ record.magic = magicWords := by
  rw [isWrapped_toBytes_iff, h, record.take_drop_toBytes_magic,
    littleWord_append_eq_magicWire_iff]

/-- The payload of a record stands behind the signature block of an image around it. -/
theorem drop_toBytes_of_record {image : SignedImage} (record : SealedRecord)
    (h : image.sealedData = record.toBytes) :
    image.toBytes.drop signatureBlockLength = record.payload := by
  rw [signatureBlockLength_eq, ← List.drop_drop, drop_toBytes, h, record.drop_toBytes]

end SignedImage

/-- The image of a sealed payload counts as wrapped. -/
theorem isWrapped_sealedImage (signature : SignatureBytes) (payload : Bytes)
    (options : SealOptions) : isWrapped (sealedImage signature payload options) = true :=
  (SignedImage.isWrapped_toBytes_of_record (.ofPayload payload options) rfl).mpr ⟨rfl, rfl⟩

/-- Stripping the image of a sealed payload gives the payload. -/
theorem stripEnvelope_sealedImage (signature : SignatureBytes) (payload : Bytes)
    (options : SealOptions) : stripEnvelope (sealedImage signature payload options) = payload := by
  rw [stripEnvelope_of_isWrapped (isWrapped_sealedImage signature payload options)]
  exact SignedImage.drop_toBytes_of_record (.ofPayload payload options) rfl

/-- A sealed image counts as wrapped, and stripping it gives the payload of the firmware. -/
theorem strip_of_sealFirmware {signer : Signer} {secretKey firmware image : Bytes}
    {options : SealOptions} (h : sealFirmware signer secretKey firmware options = .ok image) :
    isWrapped image = true ∧ stripEnvelope image = stripEnvelope firmware := by
  obtain ⟨signature, -, rfl⟩ := exists_signature_of_sealFirmware h
  exact ⟨isWrapped_sealedImage _ _ _, stripEnvelope_sealedImage _ _ _⟩

/-! ## Nested envelopes -/

/-- What goes into one envelope beside the payload. -/
structure EnvelopeRequest where
  signer : Signer
  secretKey : Bytes
  publicKey : Bytes
  options : SealOptions

/-- Seals and signs a payload, whether or not it is an image already. -/
def EnvelopeRequest.wrap (request : EnvelopeRequest) (payload : Bytes) :
    Except SigningError Bytes :=
  signAndWrap request.signer request.secretKey request.publicKey
    (sealedBytes payload request.options)

/-- Puts a payload into one envelope after the other, the first request innermost. -/
def wrapAll (requests : List EnvelopeRequest) (payload : Bytes) : Except SigningError Bytes :=
  requests.foldlM (fun inner request ↦ request.wrap inner) payload

/-- An envelope that was put on is taken off by stripping. -/
theorem EnvelopeRequest.stripEnvelope_of_wrap {request : EnvelopeRequest} {payload image : Bytes}
    (h : request.wrap payload = .ok image) : stripEnvelope image = payload := by
  obtain ⟨signature, -, rfl⟩ := exists_signature_of_signAndWrap h
  exact stripEnvelope_sealedImage signature payload request.options

/-- The first request goes on before the others. -/
theorem wrapAll_cons_eq_ok {request : EnvelopeRequest} {requests : List EnvelopeRequest}
    {payload image : Bytes} (h : wrapAll (request :: requests) payload = .ok image) :
    ∃ inner, request.wrap payload = .ok inner ∧ wrapAll requests inner = .ok image := by
  rw [wrapAll, List.foldlM_cons] at h
  cases hw : request.wrap payload with
  | error e =>
    rw [hw] at h
    cases h
  | ok inner =>
    rw [hw] at h
    exact ⟨inner, rfl, h⟩

/-- As many strips as envelopes give the payload back. -/
theorem iterate_stripEnvelope_of_wrapAll {requests : List EnvelopeRequest}
    {payload image : Bytes} (h : wrapAll requests payload = .ok image) :
    stripEnvelope^[requests.length] image = payload := by
  induction requests generalizing payload with
  | nil => exact (Except.ok.inj h).symm
  | cons request requests ih =>
    obtain ⟨inner, hw, hr⟩ := wrapAll_cons_eq_ok h
    rw [List.length_cons, Function.iterate_succ_apply', ih hr]
    exact EnvelopeRequest.stripEnvelope_of_wrap hw

/-! ## Detector and encoder agree -/

/-- An image around any sealed record counts as wrapped exactly if its jump word and magic are
right, and then stripping it leaves the payload. Hence a payload in any number of envelopes, with
any keys and options for each, is recovered by stripping as often. -/
theorem detection_matches_encoding :
    (∀ (record : SealedRecord) (image : SignedImage), image.sealedData = record.toBytes →
      (isWrapped image.toBytes = true ↔ image.jump = jumpWord ∧ record.magic = magicWords) ∧
      (isWrapped image.toBytes = true → stripEnvelope image.toBytes = record.payload)) ∧
    ∀ (requests : List EnvelopeRequest) (payload image : Bytes),
      wrapAll requests payload = .ok image →
        stripEnvelope^[requests.length] image = payload := by
  refine ⟨?_, fun requests payload image h ↦ iterate_stripEnvelope_of_wrapAll h⟩
  intro record image h
  refine ⟨SignedImage.isWrapped_toBytes_of_record record h, ?_⟩
  intro hw
  rw [stripEnvelope_of_isWrapped hw]
  exact SignedImage.drop_toBytes_of_record record h

/-- A record of all zeros is not found, and an empty payload in two envelopes is found twice. -/
theorem detection_matches_encoding_at_two_envelopes :
    isWrapped (SignedImage.ofSignature (.zero 64)
      (SealedRecord.toBytes ⟨0, (0, 0), 0, 0, 0, .zero 16, .zero 16, .zero 144, []⟩)).toBytes =
        false ∧
    ∃ image, wrapAll [⟨.constant (.zero 64), [], [], {}⟩, ⟨.constant (.zero 64), [], [], .release⟩]
        [] = .ok image ∧
      stripEnvelope^[2] image = [] := by
  constructor
  · apply Bool.eq_false_iff.mpr
    intro hw
    have hm := ((detection_matches_encoding.1 _ _ rfl).1.mp hw).2
    exact absurd hm (by decide)
  · obtain ⟨image, hw⟩ : ∃ image, wrapAll [⟨.constant (.zero 64), [], [], {}⟩,
        ⟨.constant (.zero 64), [], [], .release⟩] [] = .ok image := ⟨_, rfl⟩
    exact ⟨image, hw, detection_matches_encoding.2 _ _ _ hw⟩

end FirmwareSeal
