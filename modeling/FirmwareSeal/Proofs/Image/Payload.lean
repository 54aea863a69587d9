import FirmwareSeal.Proofs.Image.Detection

/-!
# Which bytes sealing keeps

Sealing puts the payload of a firmware behind a new signature block. Of a raw firmware that is every
byte; of a wrapped one it is what follows the first 768 bytes, so nothing if there are no more. What
is appended to a firmware goes into the payload, unless the firmware is a signature block cut short:
then the missing bytes are taken from it. Twelve places decide which of the two cases it is.
-/

namespace FirmwareSeal

/-! ## The payload of a firmware -/

/-- Only an image that is not wrapped is stripped to itself. -/
theorem stripEnvelope_eq_self_iff {image : Bytes} :
    stripEnvelope image = image ↔ isWrapped image = false := by
  cases h : isWrapped image with
  | true =>
    have hlt := length_stripEnvelope_lt h
    refine iff_of_false ?_ (by decide)
    intro hsame
    rw [hsame] at hlt
    exact Nat.lt_irrefl _ hlt
  | false => exact iff_of_true (stripEnvelope_of_not_isWrapped h) rfl

/-- A wrapped image loses its first 768 bytes, or all that it has. -/
theorem stripEnvelope_eq_drop_min {image : Bytes} (h : isWrapped image = true) :
    stripEnvelope image = image.drop (min 768 image.length) := by
  rw [stripEnvelope_of_isWrapped h]
  rcases Nat.le_total 768 image.length with hle | hle
  · rw [Nat.min_eq_left hle]
    rfl
  · rw [Nat.min_eq_right hle, List.drop_length]
    exact List.drop_of_length_le hle

/-- Behind the signature block of a sealed image stands the payload of the firmware. -/
theorem drop_of_sealFirmware {signer : Signer} {secretKey firmware image : Bytes}
    {options : SealOptions} (h : sealFirmware signer secretKey firmware options = .ok image) :
    image.drop signatureBlockLength = stripEnvelope firmware := by
  obtain ⟨hwrapped, hstrip⟩ := strip_of_sealFirmware h
  rw [← hstrip, stripEnvelope_of_isWrapped hwrapped]

/-! ## Appending -/

/-- What is appended to an image that is not wrapped, and has the places that decide it, stays
behind it. -/
theorem stripEnvelope_append_of_not_isWrapped {image : Bytes}
    (hlength : magicOffset + 8 ≤ image.length) (h : isWrapped image = false) (rest : Bytes) :
    stripEnvelope (image ++ rest) = stripEnvelope image ++ rest := by
  rw [stripEnvelope_of_not_isWrapped h, stripEnvelope_of_not_isWrapped]
  rw [isWrapped_append hlength, h]

/-- A signature block that was cut short is completed by what is appended. -/
theorem stripEnvelope_append_of_length_le {image : Bytes} (h : isWrapped image = true)
    (hlength : image.length ≤ signatureBlockLength) (rest : Bytes) :
    stripEnvelope (image ++ rest) = rest.drop (signatureBlockLength - image.length) := by
  have hwrapped : isWrapped (image ++ rest) = true := by
    rw [isWrapped_append (le_length_of_isWrapped h), h]
  rw [stripEnvelope_of_isWrapped hwrapped, List.drop_append, List.drop_of_length_le hlength,
    List.nil_append]

/-! ## The places that are looked at -/

/-- Whether a place of an image belongs to the jump word or to the magic. -/
def IsDetected (place : Nat) : Prop := place < 4 ∨ 136 ≤ place ∧ place < 144

instance : DecidablePred IsDetected :=
  fun place ↦ inferInstanceAs (Decidable (place < 4 ∨ 136 ≤ place ∧ place < 144))

/-- Images agree at these places if they have one jump word and one magic. -/
theorem agree_where_detected_iff {a b : Bytes} :
    (∀ k, IsDetected k → a[k]? = b[k]?) ↔
      a.take 4 = b.take 4 ∧ (a.drop magicOffset).take 8 = (b.drop magicOffset).take 8 := by
  have hjump := take_drop_eq_take_drop_iff a b 0 4
  rw [List.drop_zero, List.drop_zero] at hjump
  rw [hjump, take_drop_eq_take_drop_iff]
  constructor
  · intro h
    refine ⟨?_, ?_⟩
    · intro k _ hend
      exact h k (.inl (by omega))
    · intro k hk hend
      exact h k (.inr ⟨hk, hend⟩)
  · rintro ⟨hword, hmagic⟩ k (hk | ⟨hk, hend⟩)
    · exact hword k (Nat.zero_le k) (by omega)
    · exact hmagic k hk hend

/-- Images that agree there are both wrapped or both not. -/
theorem isWrapped_congr {a b : Bytes} (h : ∀ k, IsDetected k → a[k]? = b[k]?) :
    isWrapped a = isWrapped b := by
  obtain ⟨hjump, hmagic⟩ := agree_where_detected_iff.mp h
  unfold isWrapped
  rw [hjump, hmagic]

/-- All wrapped images agree there. -/
theorem agree_of_isWrapped {a b : Bytes} (ha : isWrapped a = true) (hb : isWrapped b = true) :
    ∀ k, IsDetected k → a[k]? = b[k]? := by
  obtain ⟨hjumpA, hmagicA⟩ := (isWrapped_iff a).mp ha
  obtain ⟨hjumpB, hmagicB⟩ := (isWrapped_iff b).mp hb
  exact agree_where_detected_iff.mpr ⟨hjumpA.trans hjumpB.symm, hmagicA.trans hmagicB.symm⟩

/-- An image that differs there from a wrapped one is not wrapped. -/
theorem isWrapped_eq_false_of_ne {image altered : Bytes} (h : isWrapped image = true) {k : Nat}
    (hk : IsDetected k) (hne : altered[k]? ≠ image[k]?) : isWrapped altered = false := by
  apply Bool.eq_false_iff.mpr
  intro hwrapped
  exact hne (agree_of_isWrapped hwrapped h k hk)

/-- Behind the signature block of a sealed image stand all bytes of the firmware exactly if it was
not wrapped, and otherwise all but its first 768, or none if it has no more; at least 144 are lost
then. Bytes appended to a firmware are appended to its payload if it has 768 bytes, or has 144 and
is not wrapped; they complete a signature block that was cut short. Bytes outside the jump word and
the magic may change without an effect on the detection, and any change inside them makes a wrapped
image a raw one, all of which is kept. -/
theorem sealing_keeps_all_but_signature_block :
    (∀ signer secretKey firmware options image,
      sealFirmware signer secretKey firmware options = .ok image →
        (image.drop 768 = firmware ↔ isWrapped firmware = false) ∧
        (isWrapped firmware = true → image.drop 768 = firmware.drop (min 768 firmware.length) ∧
          144 ≤ min 768 firmware.length)) ∧
    (∀ x y : Bytes, 768 ≤ x.length ∨ 144 ≤ x.length ∧ isWrapped x = false →
      stripEnvelope (x ++ y) = stripEnvelope x ++ y) ∧
    (∀ x y : Bytes, x.length ≤ 768 → isWrapped x = true →
      stripEnvelope (x ++ y) = y.drop (768 - x.length)) ∧
    (∀ image altered : Bytes, 144 ≤ image.length → altered.length = image.length →
      (∀ k, IsDetected k → altered[k]? = image[k]?) → isWrapped altered = isWrapped image) ∧
    ∀ image altered : Bytes, isWrapped image = true → altered.length = image.length →
      (∃ k, IsDetected k ∧ altered[k]? ≠ image[k]?) → stripEnvelope altered = altered := by
  refine ⟨?_, ?_, ?_, ?_, ?_⟩
  · intro signer secretKey firmware options image h
    have hdrop : image.drop 768 = stripEnvelope firmware := drop_of_sealFirmware h
    rw [hdrop]
    refine ⟨stripEnvelope_eq_self_iff, ?_⟩
    intro hwrapped
    have hlength : 144 ≤ firmware.length := le_length_of_isWrapped hwrapped
    exact ⟨stripEnvelope_eq_drop_min hwrapped, by omega⟩
  · rintro x y (hlength | ⟨hlength, hraw⟩)
    · exact stripEnvelope_append hlength y
    · exact stripEnvelope_append_of_not_isWrapped hlength hraw y
  · intro x y hlength hwrapped
    exact stripEnvelope_append_of_length_le hwrapped hlength y
  · intro image altered _ _ h
    exact isWrapped_congr h
  · rintro image altered hwrapped _ ⟨k, hk, hne⟩
    exact stripEnvelope_of_not_isWrapped (isWrapped_eq_false_of_ne hwrapped hk hne)

/-- A signature block that was cut down to 200 bytes seals to an image without a payload, and takes
568 bytes from what is appended; 144 zeros keep what is appended. The short block is still found
with another byte between the jump word and the magic, and not with another byte of the magic. -/
theorem sealing_keeps_all_but_signature_block_cut_short :
    let block := littleWord jumpWord ++ zeros 132 ++ magicWire.toList ++ zeros 56
    (∃ image, sealFirmware (.constant (.zero 64)) [] block {} = .ok image ∧ image.drop 768 = []) ∧
      stripEnvelope (block ++ zeros 600) = zeros 32 ∧
      stripEnvelope (zeros 144 ++ [7]) = zeros 144 ++ [7] ∧
      isWrapped (block.set 135 7) = true ∧
      stripEnvelope (block.set 136 7) = block.set 136 7 := by
  intro block
  obtain ⟨hseal, happend, hshort, houtside, hinside⟩ := sealing_keeps_all_but_signature_block
  have hwrapped : isWrapped block = true := by decide +kernel
  have hlength : block.length = 200 := by decide +kernel
  refine ⟨?_, ?_, ?_, ?_, ?_⟩
  · obtain ⟨image, h⟩ : ∃ image, sealFirmware (.constant (.zero 64)) [] block {} = .ok image :=
      ⟨_, signAndWrap_eq_ok_iff.mpr ⟨.zero 64, rfl, rfl⟩⟩
    refine ⟨image, h, ?_⟩
    rw [((hseal _ _ _ _ _ h).2 hwrapped).1, hlength]
    exact List.drop_of_length_le (Nat.le_of_eq hlength)
  · rw [hshort block (zeros 600) (by rw [hlength]; decide) hwrapped, hlength]
    exact List.drop_replicate
  · have hraw : isWrapped (zeros 144) = false := by decide +kernel
    rw [happend (zeros 144) [7] (.inr ⟨Nat.le_refl 144, hraw⟩),
      stripEnvelope_of_not_isWrapped hraw]
  · rw [houtside block (block.set 135 7) (by rw [hlength]; decide) List.length_set, hwrapped]
    intro k hk
    have hne : 135 ≠ k := by
      rintro rfl
      exact absurd hk (by decide)
    exact List.getElem?_set_ne hne
  · exact hinside block (block.set 136 7) hwrapped List.length_set
      ⟨136, by decide, by decide +kernel⟩

end FirmwareSeal
