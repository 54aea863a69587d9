import FirmwareSeal.Image.Envelope

/-!
# Sealing a firmware

From a firmware, raw or already signed, to a signed image. An old signature block is replaced, not
nested, so sealing the image again with the same arguments gives the same image.
-/

namespace FirmwareSeal

/-- The signed image of a firmware: its payload, without an old signature block, sealed with the
options and signed for the development key slot. -/
def sealFirmware (signer : Signer) (secretKey firmware : Bytes) (options : SealOptions) :
    Except SigningError Bytes :=
  (SignedImage.sign signer secretKey (sealedBytes (stripEnvelope firmware) options)).map
    SignedImage.toBytes

end FirmwareSeal
