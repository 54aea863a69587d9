import FirmwareSeal.Proofs.Image.Coverage
import FirmwareSeal.Signature.SelfTest

/-!
# Signers that differ in their reasons

What is made with a signer does not depend on why it refuses. With a signer that gives other reasons
the same firmware is sealed and the same images verify; where something is refused, it is for the
reason that this signer has. The known answer does not even show the reason.
-/

namespace FirmwareSeal

/-- A signer that gives other reasons in place of those of a signer. -/
def Signer.withReasons (signer : Signer) (reason : SigningError → SigningError) : Signer where
  sign secretKey publicKey message := (signer.sign secretKey publicKey message).mapError reason
  verify publicKey message signature := (signer.verify publicKey message signature).mapError reason

section

variable (signer : Signer) (reason : SigningError → SigningError)

/-- The same signatures are made, and what is refused is refused for the other reason. -/
theorem Signer.sign_withReasons (secretKey publicKey message : Bytes) :
    (signer.withReasons reason).sign secretKey publicKey message =
      (signer.sign secretKey publicKey message).mapError reason := rfl

/-- Signing gives the same image, or the other reason. -/
theorem signAndWrap_withReasons (secretKey publicKey sealedData : Bytes) :
    signAndWrap (signer.withReasons reason) secretKey publicKey sealedData =
      (signAndWrap signer secretKey publicKey sealedData).mapError reason := by
  rw [signAndWrap_eq_map, signAndWrap_eq_map, Signer.sign_withReasons]
  cases signer.sign secretKey publicKey sealedData with
  | error e => rfl
  | ok signature => rfl

/-- Sealing gives the same image, or the other reason. -/
theorem sealFirmware_withReasons (secretKey firmware : Bytes) (options : SealOptions) :
    sealFirmware (signer.withReasons reason) secretKey firmware options =
      (sealFirmware signer secretKey firmware options).mapError reason :=
  signAndWrap_withReasons signer reason _ _ _

/-- The same images verify. What refuses an image without a full header is not the signer. -/
theorem verifyImage_withReasons (publicKey image : Bytes) :
    verifyImage (signer.withReasons reason) publicKey image =
      if signedHeaderLength ≤ image.length then
        (verifyImage signer publicKey image).mapError reason
      else .error .verification := by
  split
  · next h =>
    rw [verifyImage_of_le h, verifyImage_of_le h]
    rfl
  · next h => rw [verifyImage_of_lt (Nat.lt_of_not_le h)]

/-- The known answer has the same result. -/
theorem selfTest_withReasons : selfTest (signer.withReasons reason) = selfTest signer := by
  rw [selfTest, selfTest, Signer.sign_withReasons]
  cases signer.sign KnownAnswer.secretKey KnownAnswer.publicKey KnownAnswer.message with
  | error e => rfl
  | ok signature => rfl

end

end FirmwareSeal
