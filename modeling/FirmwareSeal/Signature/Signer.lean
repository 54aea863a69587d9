import FirmwareSeal.Sha512
import FirmwareSeal.Signature.Error

/-!
# Signers

A signer turns a secret key, the public key that belongs to it and a message into 64 bytes, and
checks such bytes against a public key and a message. Its answer depends on these arguments only.
Beside real signatures there are three stand-ins: a digest in place of a signature, the same
signature for everything, and a signer that always refuses.
-/

namespace FirmwareSeal

/-- The bytes of a signature. -/
abbrev SignatureBytes := Octets 64

/-- Makes signatures and checks them. -/
structure Signer where
  /-- The signature of a message, under a secret key and the public key that belongs to it. -/
  sign : (secretKey publicKey message : Bytes) → Except SigningError SignatureBytes
  /-- Whether a signature of a message belongs to a public key. -/
  verify : (publicKey message : Bytes) → SignatureBytes → Except SigningError Unit

namespace Signer

/-- Reads key material as 32 bytes. -/
def keyOctets (half : KeyHalf) (key : Bytes) : Except SigningError (Octets 32) :=
  match Octets.ofList? 32 key with
  | some octets => .ok octets
  | none => .error (.keyLength half key.length)

/-- Takes the digest of public key and message for their signature; the secret key only has to
have the right length. -/
def digest : Signer where
  sign secretKey publicKey message :=
    (keyOctets .secretHalf secretKey).map fun _ ↦ sha512 (publicKey ++ message)
  verify publicKey message signature :=
    if sha512 (publicKey ++ message) = signature then .ok () else .error .verification

/-- Gives the same signature to everything and accepts any. -/
def constant (signature : SignatureBytes) : Signer where
  sign _ _ _ := .ok signature
  verify _ _ _ := .ok ()

/-- Refuses everything for one reason. -/
def failing (error : SigningError) : Signer where
  sign _ _ _ := .error error
  verify _ _ _ := .error error

/-- A key is accepted exactly if it is the bytes of the octets returned. -/
theorem keyOctets_eq_ok_iff {half : KeyHalf} {key : Bytes} {octets : Octets 32} :
    keyOctets half key = .ok octets ↔ octets.toList = key := by
  unfold keyOctets
  rw [← Octets.ofList?_eq_some_iff]
  split <;> simp_all

/-- A key of another length is refused with that length. -/
theorem keyOctets_eq_error_iff {half : KeyHalf} {key : Bytes} {error : SigningError} :
    keyOctets half key = .error error ↔ key.length ≠ 32 ∧ error = .keyLength half key.length := by
  unfold keyOctets
  split
  · next h =>
    have := Octets.ofList?_eq_some_iff.mp h
    subst this
    simp
  · next h =>
    have := Octets.ofList?_eq_none_iff.mp h
    simp [this, eq_comm]

end Signer

end FirmwareSeal
