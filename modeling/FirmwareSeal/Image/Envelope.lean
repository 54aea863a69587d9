import FirmwareSeal.Image.Signed

/-!
# Images that already carry a signature block

An image counts as wrapped if it starts with the jump instruction and has the sealed magic in its
place; no signature is checked, so a payload may look wrapped by chance. Stripping drops the
signature block of a wrapped image, which leaves nothing of an image shorter than the block.
-/

namespace FirmwareSeal

/-- Whether an image starts with the jump and has the magic where a signed image has it. -/
def isWrapped (image : Bytes) : Bool :=
  image.take 4 == littleWord jumpWord && (image.drop magicOffset).take 8 == magicWire.toList

/-- The image without its signature block, or as it is if it has none. -/
def stripEnvelope (image : Bytes) : Bytes :=
  if isWrapped image then image.drop signatureBlockLength else image

/-- A wrapped image reaches to the end of the magic. -/
theorem le_length_of_isWrapped {image : Bytes} (h : isWrapped image = true) :
    magicOffset + 8 ≤ image.length := by
  simp only [isWrapped, Bool.and_eq_true, beq_iff_eq] at h
  have e := congrArg List.length h.2
  simp only [List.length_take, List.length_drop, Octets.length_toList] at e
  omega

/-- Only wrapped images lose bytes. -/
theorem stripEnvelope_of_not_isWrapped {image : Bytes} (h : isWrapped image = false) :
    stripEnvelope image = image := by
  simp [stripEnvelope, h]

/-- A wrapped image loses its signature block. -/
theorem stripEnvelope_of_isWrapped {image : Bytes} (h : isWrapped image = true) :
    stripEnvelope image = image.drop signatureBlockLength := by
  simp [stripEnvelope, h]

/-- Stripping a wrapped image makes it shorter. -/
theorem length_stripEnvelope_lt {image : Bytes} (h : isWrapped image = true) :
    (stripEnvelope image).length < image.length := by
  have hl := le_length_of_isWrapped h
  rw [stripEnvelope_of_isWrapped h, List.length_drop]
  simp only [magicOffset, signedHeaderLength, signatureBlockLength] at hl ⊢
  omega

end FirmwareSeal
