import FirmwareSeal.Bytes.Endian
import FirmwareSeal.Signature.Edwards25519
import FirmwareSeal.Signature.Signer

/-!
# Prehashed Edwards-curve signatures with an empty context

The message enters through its SHA-512 digest, and every hash starts with the same fixed bytes.
A seed is expanded into a scalar and a nonce key; the public key is the scalar's multiple of the
base point. A signature is a nonce point and a response below the group order; it is accepted if
the point recomputed from the response has the very bytes of the nonce point.

Signing and verifying are written over any `SigningGroup`. `ed25519ph` is the signer over
edwards25519.
-/

namespace FirmwareSeal

namespace Ed25519ph

/-- What every hash starts with: the scheme's name, the mark of a prehashed message and the
length of the empty context. -/
def hashHeader : Bytes :=
  "SigEd25519 no Ed25519 collisions".toUTF8.toList ++ [1, 0]

/-- The scalar and the nonce key that a seed stands for. -/
structure ExpandedSeed where
  scalar : Nat
  nonceKey : Bytes

/-- A number of 32 bytes with its lowest three bits cleared and its highest set at bit 254. -/
def clamp (n : Nat) : Nat := n % Nat.pow 2 254 / 8 * 8 + Nat.pow 2 254

/-- Splits the digest of a seed: the first half makes the scalar, the second is the nonce key. -/
def expand (seed : Octets 32) : ExpandedSeed :=
  let h := (sha512 seed.toList).toList
  ⟨clamp (ofLittle (h.take 32)), h.drop 32⟩

/-- The number that a hash of some bytes gives, below the group order. -/
def hashToScalar (G : SigningGroup) (bytes : Bytes) : Nat :=
  ofLittle (sha512 (hashHeader ++ bytes)).toList % G.order

/-- The challenge for a nonce point, a public key and a message digest. -/
def challenge (G : SigningGroup) (noncePoint publicKey : Octets 32) (prehash : Octets 64) : Nat :=
  hashToScalar G (noncePoint.toList ++ publicKey.toList ++ prehash.toList)

/-- The public key that belongs to a seed. -/
def publicKeyOf (G : SigningGroup) (seed : Octets 32) : Octets 32 :=
  G.encode (G.multiple (expand seed).scalar G.base)

/-- The signature of a message digest under a seed and the public key derived from it. -/
def signDigest (G : SigningGroup) (seed publicKey : Octets 32) (prehash : Octets 64) :
    SignatureBytes :=
  let key := expand seed
  let nonce := hashToScalar G (key.nonceKey ++ prehash.toList)
  let noncePoint := G.encode (G.multiple nonce G.base)
  let response := (nonce + challenge G noncePoint publicKey prehash * key.scalar) % G.order
  noncePoint.append ⟨toLittle 32 response, length_toLittle 32 _⟩

/-- The nonce point of a signature: its first half. -/
def noncePointOf (signature : SignatureBytes) : Octets 32 :=
  ⟨signature.toList.take 32, by simp⟩

/-- The response of a signature: the number in its second half. -/
def responseOf (signature : SignatureBytes) : Nat := ofLittle (signature.toList.drop 32)

/-- Whether a signature of a message digest belongs to a public key. The response has to be below
the group order; points of small order are allowed. -/
def verifyDigest (G : SigningGroup) (publicKey : Octets 32) (prehash : Octets 64)
    (signature : SignatureBytes) : Bool :=
  match G.decode? publicKey with
  | none => false
  | some A =>
    let k := challenge G (noncePointOf signature) publicKey prehash
    let s := responseOf signature
    s < G.order &&
      G.encode (G.add (G.multiple s G.base) (G.neg (G.multiple k A))) = noncePointOf signature

/-- Accepts a public key that decodes to a point and is the one derived from the seed. -/
def checkKeyPair (G : SigningGroup) (seed publicKey : Octets 32) : Except SigningError Unit :=
  if (G.decode? publicKey).isNone then
    .error (.signing .init "signature error: Cannot decompress Edwards point")
  else if publicKeyOf G seed = publicKey then .ok ()
  else .error (.signing .init "signature error: Mismatched Keypair detected")

/-- Signs under a key pair; the secret key's length is looked at first, then the public key's,
then whether they belong together. -/
def sign (G : SigningGroup) (secretKey publicKey message : Bytes) :
    Except SigningError SignatureBytes := do
  let seed ← Signer.keyOctets .secretHalf secretKey
  let key ← Signer.keyOctets .publicHalf publicKey
  checkKeyPair G seed key
  return signDigest G seed key (sha512 message)

/-- Checks a signature; past the public key's length every fault is a failed verification. -/
def verify (G : SigningGroup) (publicKey message : Bytes) (signature : SignatureBytes) :
    Except SigningError Unit := do
  let key ← Signer.keyOctets .publicHalf publicKey
  if verifyDigest G key (sha512 message) signature then return ()
  else throw .verification

/-- The scheme over a group, as a signer. -/
def signer (G : SigningGroup) : Signer where
  sign := sign G
  verify := verify G

end Ed25519ph

/-- Prehashed Edwards-curve signatures over edwards25519. -/
def ed25519ph : Signer := Ed25519ph.signer edwards25519

end FirmwareSeal
