import FirmwareSeal.Signature.Signer

/-!
# The known answer

Before a signer gets real keys it signs a published example, and its signature is compared with
the published one.
-/

namespace FirmwareSeal

namespace KnownAnswer

/-- The seed of the example. -/
def secretKey : Bytes :=
  [0x83, 0x3f, 0xe6, 0x24, 0x09, 0x23, 0x7b, 0x9d, 0x62, 0xec, 0x77, 0x58, 0x75, 0x20, 0x91, 0x1e,
   0x9a, 0x75, 0x9c, 0xec, 0x1d, 0x19, 0x75, 0x5b, 0x7d, 0xa9, 0x01, 0xb9, 0x6d, 0xca, 0x3d, 0x42]

/-- The public key of the example. -/
def publicKey : Bytes :=
  [0xec, 0x17, 0x2b, 0x93, 0xad, 0x5e, 0x56, 0x3b, 0xf4, 0x93, 0x2c, 0x70, 0xe1, 0x24, 0x50, 0x34,
   0xc3, 0x54, 0x67, 0xef, 0x2e, 0xfd, 0x4d, 0x64, 0xeb, 0xf8, 0x19, 0x68, 0x34, 0x67, 0xe2, 0xbf]

/-- The message of the example: `abc`. -/
def message : Bytes := [0x61, 0x62, 0x63]

/-- The signature of the example. -/
def signature : SignatureBytes :=
  ⟨[0x98, 0xa7, 0x02, 0x22, 0xf0, 0xb8, 0x12, 0x1a, 0xa9, 0xd3, 0x0f, 0x81, 0x3d, 0x68, 0x3f, 0x80,
    0x9e, 0x46, 0x2b, 0x46, 0x9c, 0x7f, 0xf8, 0x76, 0x39, 0x49, 0x9b, 0xb9, 0x4e, 0x6d, 0xae, 0x41,
    0x31, 0xf8, 0x50, 0x42, 0x46, 0x3c, 0x2a, 0x35, 0x5a, 0x20, 0x03, 0xd0, 0x62, 0xad, 0xf5, 0xaa,
    0xa1, 0x0b, 0x8c, 0x61, 0xe6, 0x36, 0x06, 0x2a, 0xaa, 0xd1, 0x1c, 0x2a, 0x26, 0x08, 0x34, 0x06], rfl⟩

end KnownAnswer

/-- Passes a signer that reproduces the known answer; a refusal to sign fails the test too. -/
def selfTest (signer : Signer) : Except SigningError Unit :=
  match signer.sign KnownAnswer.secretKey KnownAnswer.publicKey KnownAnswer.message with
  | .ok signature =>
    if signature = KnownAnswer.signature then .ok () else .error .selfTest
  | .error _ => .error .selfTest

/-- Exactly the signers that reproduce the known answer pass. -/
theorem selfTest_eq_ok_iff {signer : Signer} :
    selfTest signer = .ok () ↔
      signer.sign KnownAnswer.secretKey KnownAnswer.publicKey KnownAnswer.message =
        .ok KnownAnswer.signature := by
  unfold selfTest
  split
  · next s h => by_cases hs : s = KnownAnswer.signature <;> simp [hs, h]
  · next h => simp [h]

end FirmwareSeal
