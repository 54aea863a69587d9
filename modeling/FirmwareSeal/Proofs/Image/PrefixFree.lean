import FirmwareSeal.Proofs.Image.Detection
import Mathlib.Data.List.Infix

/-!
# Sealed bytes say where they end

Every field of a sealed record has a place of its own, and the length word says where the record
ends. So no record with a right length word is written as the beginning of another one, and a
signed image that was cut off or extended is never the image of some other payload.
-/

namespace FirmwareSeal

/-! ## Sealed records -/

namespace SealedRecord

/-- Whether the length word of a record is the length of its bytes. -/
def HasExactLength (r : SealedRecord) : Prop :=
  r.signedLength.toNat = sealedHeaderLength + r.payload.length

instance : DecidablePred HasExactLength := fun r ↦
  inferInstanceAs (Decidable (r.signedLength.toNat = sealedHeaderLength + r.payload.length))

/-- A record that seals a payload has a right length word if the length fits a word. -/
theorem hasExactLength_ofPayload {payload : Bytes} (options : SealOptions)
    (h : sealedHeaderLength + payload.length < UInt32.size) :
    (ofPayload payload options).HasExactLength :=
  UInt32.toNat_ofNat_of_lt' h

/-- The bytes of a record tell all of its fields. -/
theorem toBytes_injective : Function.Injective toBytes := by
  intro r s h
  -- All parts but the payload have a fixed length, so the parts are equal one by one.
  rw [toBytes_eq, toBytes_eq] at h
  have hlength : (r.words.flatMap littleWord).length = (s.words.flatMap littleWord).length := by
    rw [length_flatMap_littleWord, length_flatMap_littleWord]
    rfl
  obtain ⟨hwords, h⟩ := List.append_inj h hlength
  obtain ⟨hminSemver, h⟩ := List.append_inj h (by simp)
  obtain ⟨hsemver, h⟩ := List.append_inj h (by simp)
  obtain ⟨hkeyTable, h⟩ := List.append_inj h (by simp)
  have hpayload := List.append_cancel_left h
  have hfields : r.words = s.words := flatMap_littleWord_injective hwords
  simp only [words, List.cons.injEq, and_true] at hfields
  obtain ⟨hversion, hmagic, hmagic', hsigned, hfunction, hreserved⟩ := hfields
  cases r
  cases s
  simp only [mk.injEq]
  exact ⟨hversion, Prod.ext hmagic hmagic', hsigned, hfunction, hreserved,
    Octets.ext hminSemver, Octets.ext hsemver, Octets.ext hkeyTable, hpayload⟩

/-- A record whose bytes begin another one has its length word. -/
theorem signedLength_eq_of_isPrefix {r s : SealedRecord} (h : r.toBytes <+: s.toBytes) :
    r.signedLength = s.signedLength := by
  obtain ⟨rest, hrest⟩ := h
  have hin : 12 + 4 ≤ r.toBytes.length := by
    rw [length_toBytes, sealedHeaderLength, fieldsLength]
    omega
  rw [← r.wordAt_toBytes_signedLength, ← s.wordAt_toBytes_signedLength, ← hrest,
    wordAt_append_left hin]

/-- No record is written as the beginning of another one, if both have right length words. -/
theorem eq_of_isPrefix {r s : SealedRecord} (hr : r.HasExactLength) (hs : s.HasExactLength)
    (h : r.toBytes <+: s.toBytes) : r = s := by
  -- The length word is in the common part, so there is nothing behind it.
  have hlength : r.toBytes.length = s.toBytes.length := by
    rw [length_toBytes, length_toBytes, ← hr, ← hs, signedLength_eq_of_isPrefix h]
  exact toBytes_injective (h.eq_of_length hlength)

/-- A record made for a payload tells the payload and the options. -/
theorem ofPayload_inj {p q : Bytes} {o o' : SealOptions} (h : ofPayload p o = ofPayload q o') :
    p = q ∧ o = o' := by
  simp only [ofPayload, mk.injEq, true_and] at h
  obtain ⟨-, hfunction, hminSemver, hsemver, hpayload⟩ := h
  cases o
  cases o'
  exact ⟨hpayload, by simp only [SealOptions.mk.injEq]; exact ⟨hfunction, hminSemver, hsemver⟩⟩

end SealedRecord

/-! ## Sealed payloads and signed images -/

/-- No sealed payload begins another one whose length fits a word. -/
theorem eq_of_sealedBytes_isPrefix {p q : Bytes} {o o' : SealOptions}
    (hq : sealedHeaderLength + q.length < UInt32.size)
    (h : sealedBytes p o <+: sealedBytes q o') : p = q ∧ o = o' := by
  have hp : sealedHeaderLength + p.length < UInt32.size := by
    have hle := h.length_le
    rw [length_sealedBytes, length_sealedBytes] at hle
    exact Nat.lt_of_le_of_lt hle hq
  apply SealedRecord.ofPayload_inj
  exact SealedRecord.eq_of_isPrefix (SealedRecord.hasExactLength_ofPayload o hp)
    (SealedRecord.hasExactLength_ofPayload o' hq) h

/-- An image that begins another one covers bytes that begin those of the other. -/
theorem sealedBytes_isPrefix_of_sealedImage {signature signature' : SignatureBytes} {p q : Bytes}
    {o o' : SealOptions} (h : sealedImage signature p o <+: sealedImage signature' q o') :
    sealedBytes p o <+: sealedBytes q o' := by
  have hdrop := h.drop signedHeaderLength
  rw [sealedImage, sealedImage, SignedImage.drop_toBytes, SignedImage.drop_toBytes] at hdrop
  exact hdrop

/-- No record with a right length word is written as the beginning of another one. So a payload that
was sealed begins a sealed payload whose length fits its word only if payload and options are the
same, and an image, whoever signed it with which key, begins the image of such a payload only if it
is that image. -/
theorem sealed_encoding_is_prefix_free :
    (∀ r s : SealedRecord, r.HasExactLength → s.HasExactLength → r.toBytes <+: s.toBytes → r = s) ∧
    (∀ (p q : Bytes) (o o' : SealOptions), sealedHeaderLength + q.length < UInt32.size →
      sealedBytes p o <+: sealedBytes q o' → p = q ∧ o = o') ∧
    ∀ (signer signer' : Signer) (secretKey secretKey' firmware firmware' image image' : Bytes)
      (options options' : SealOptions),
      sealFirmware signer secretKey firmware options = .ok image →
      sealFirmware signer' secretKey' firmware' options' = .ok image' →
      sealedHeaderLength + (stripEnvelope firmware').length < UInt32.size →
      image <+: image' →
        image = image' ∧ stripEnvelope firmware = stripEnvelope firmware' ∧ options = options' := by
  refine ⟨fun r s hr hs h ↦ SealedRecord.eq_of_isPrefix hr hs h,
    fun p q o o' hq h ↦ eq_of_sealedBytes_isPrefix hq h, ?_⟩
  intro signer signer' secretKey secretKey' firmware firmware' image image' options options'
    hseal hseal' hfits h
  obtain ⟨signature, -, rfl⟩ := exists_signature_of_sealFirmware hseal
  obtain ⟨signature', -, rfl⟩ := exists_signature_of_sealFirmware hseal'
  obtain ⟨hpayload, hoptions⟩ :=
    eq_of_sealedBytes_isPrefix hfits (sealedBytes_isPrefix_of_sealedImage h)
  have hlength : (sealedImage signature (stripEnvelope firmware) options).length =
      (sealedImage signature' (stripEnvelope firmware') options').length := by
    rw [length_sealedImage, length_sealedImage, hpayload]
  exact ⟨h.eq_of_length hlength, hpayload, hoptions⟩

/-- The record of the empty payload does not begin that of a payload of one byte, and an image that
is sealed again with another key keeps its payload. -/
theorem sealed_encoding_is_prefix_free_at_resealed_image :
    ¬(SealedRecord.ofPayload [] {}).toBytes <+: (SealedRecord.ofPayload [7] .release).toBytes ∧
    ∃ image, sealFirmware (.constant (.zero 64)) [] [7] .release = .ok image ∧
      sealFirmware (.constant (.zero 64)) [1] image .release = .ok image ∧
      stripEnvelope [7] = stripEnvelope image := by
  obtain ⟨hrecords, -, himages⟩ := sealed_encoding_is_prefix_free
  constructor
  · intro h
    have he := hrecords _ _ (by decide) (by decide) h
    exact absurd (congrArg SealedRecord.payload he) (by decide)
  · obtain ⟨image, hfirst⟩ : ∃ image, sealFirmware (.constant (.zero 64)) [] [7] .release =
        .ok image := ⟨_, rfl⟩
    have hstrip : stripEnvelope image = stripEnvelope [7] := (strip_of_sealFirmware hfirst).2
    have hagain : sealFirmware (.constant (.zero 64)) [1] image .release = .ok image := by
      rw [← hfirst, sealFirmware_eq_signAndWrap, sealFirmware_eq_signAndWrap, hstrip]
      rfl
    have hfits : sealedHeaderLength + (stripEnvelope image).length < UInt32.size := by
      rw [hstrip]
      decide
    exact ⟨image, hfirst, hagain,
      (himages _ _ _ _ _ _ _ _ _ _ hfirst hagain hfits (List.prefix_refl image)).2.1⟩

end FirmwareSeal
