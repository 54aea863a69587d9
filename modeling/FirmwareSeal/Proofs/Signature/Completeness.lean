import FirmwareSeal.Proofs.Edwards25519.Laws
import FirmwareSeal.Proofs.Signature.KeyPairs

/-!
# Every signature verifies

Signer and verifier compute the challenge for themselves, from the same bytes in the same order.
With one challenge `k`, nonce `r` and scalar `a`, the response is `r + k * a` modulo the order, so
subtracting the `k`-th multiple of the public point from the response's multiple of the base point
leaves the nonce point. This holds over every group that has the laws, for every seed and message,
and edwards25519 has them.
-/

namespace FirmwareSeal

namespace Ed25519ph

/-! ## The halves of a signature -/

/-- The nonce point is the first half. -/
theorem noncePointOf_append (noncePoint response : Octets 32) :
    noncePointOf (noncePoint.append response) = noncePoint := by
  apply Octets.ext
  exact List.take_left' noncePoint.length_toList

/-- The response is the number in the second half. -/
theorem responseOf_append (noncePoint response : Octets 32) :
    responseOf (noncePoint.append response) = ofLittle response.toList := by
  unfold responseOf
  rw [Octets.toList_append, List.drop_left' noncePoint.length_toList]

section

variable (G : SigningGroup) (seed publicKey : Octets 32) (prehash : Octets 64)

/-- The number whose multiple of the base point is the nonce point. -/
def nonceOf : Nat := hashToScalar G ((expand seed).nonceKey ++ prehash.toList)

/-- The encoded nonce point. -/
def noncePoint : Octets 32 := G.encode (G.multiple (nonceOf G seed prehash) G.base)

/-- The response that goes into a signature. -/
def response : Nat :=
  (nonceOf G seed prehash +
    challenge G (noncePoint G seed prehash) publicKey prehash * (expand seed).scalar) % G.order

/-- A signature is a nonce point and a response. -/
theorem signDigest_eq_append :
    signDigest G seed publicKey prehash =
      (noncePoint G seed prehash).append
        ⟨toLittle 32 (response G seed publicKey prehash), length_toLittle 32 _⟩ := rfl

/-- The nonce point is read back from a signature. -/
theorem noncePointOf_signDigest :
    noncePointOf (signDigest G seed publicKey prehash) = noncePoint G seed prehash := by
  rw [signDigest_eq_append, noncePointOf_append]

end

section

variable {G : SigningGroup} (laws : G.Laws) (seed : Octets 32)
include laws

/-- A response is below the order. -/
theorem response_lt_order (publicKey : Octets 32) (prehash : Octets 64) :
    response G seed publicKey prehash < G.order :=
  Nat.mod_lt _ laws.order_pos

/-- The response is read back from a signature. -/
theorem responseOf_signDigest (publicKey : Octets 32) (prehash : Octets 64) :
    responseOf (signDigest G seed publicKey prehash) = response G seed publicKey prehash := by
  rw [signDigest_eq_append, responseOf_append]
  exact ofLittle_toLittle_of_lt
    (Nat.lt_of_lt_of_le (response_lt_order laws seed publicKey prehash) laws.order_le)

/-! ## The verifier's equation -/

/-- The public key of a seed is decoded to the scalar's multiple of the base point. -/
theorem decode?_publicKeyOf :
    G.decode? (publicKeyOf G seed) = some (G.multiple (expand seed).scalar G.base) :=
  laws.decode?_encode (G.isMultiple_multiple _)

/-- The multiple by a response, less the challenge's multiple of the public point, is the nonce's
multiple exactly if the response has the multiple of the signer's. -/
theorem encode_recomputed_eq_iff (response challenge scalar nonce : Nat) :
    G.encode (G.add (G.multiple response G.base)
        (G.neg (G.multiple challenge (G.multiple scalar G.base)))) =
        G.encode (G.multiple nonce G.base) ↔
      G.multiple response G.base =
        G.multiple ((nonce + challenge * scalar) % G.order) G.base := by
  have hresponse := G.isMultiple_multiple response
  have hnonce := G.isMultiple_multiple nonce
  have hpublic := G.isMultiple_multiple (challenge * scalar)
  have hrecomputed := laws.isMultiple_add hresponse (laws.isMultiple_neg hpublic)
  rw [laws.multiple_multiple, laws.encode_inj hrecomputed hnonce,
    laws.add_neg_eq_iff hresponse hpublic hnonce, laws.multiple_mod_order, laws.multiple_add]

/-- With the nonce point of the signer, only responses below the order that have the multiple of the
signer's response are accepted. -/
theorem verifyDigest_eq_true_iff (prehash : Octets 64) {signature : SignatureBytes}
    (h : noncePointOf signature = noncePoint G seed prehash) :
    verifyDigest G (publicKeyOf G seed) prehash signature = true ↔
      responseOf signature < G.order ∧
        G.multiple (responseOf signature) G.base =
          G.multiple (response G seed (publicKeyOf G seed) prehash) G.base := by
  unfold verifyDigest
  rw [decode?_publicKeyOf laws]
  simp only [h, Bool.and_eq_true, decide_eq_true_eq]
  exact and_congr_right fun _ ↦ encode_recomputed_eq_iff laws _ _ _ _

/-! ## Signing and verifying -/

/-- The public key of a seed belongs to it. -/
theorem checkKeyPair_publicKeyOf : checkKeyPair G seed (publicKeyOf G seed) = .ok () := by
  rw [checkKeyPair_eq_ok_iff, decode?_publicKeyOf laws]
  exact ⟨rfl, rfl⟩

/-- Signing under the public key of a seed gives a signature. -/
theorem sign_publicKeyOf (message : Bytes) :
    sign G seed.toList (publicKeyOf G seed).toList message =
      .ok (signDigest G seed (publicKeyOf G seed) (sha512 message)) := by
  rw [sign_toList, checkKeyPair_publicKeyOf laws]
  rfl

/-- A signature with the signer's nonce point is accepted exactly if its response is below the order
and has the same multiple of the base point. -/
theorem verify_publicKeyOf_eq_ok_iff (message : Bytes) {signature : SignatureBytes}
    (h : noncePointOf signature = noncePoint G seed (sha512 message)) :
    verify G (publicKeyOf G seed).toList message signature = .ok () ↔
      responseOf signature < G.order ∧
        G.multiple (responseOf signature) G.base =
          G.multiple (response G seed (publicKeyOf G seed) (sha512 message)) G.base := by
  rw [verify_toList, ← verifyDigest_eq_true_iff laws seed (sha512 message) h]
  split
  · next haccepted => simp [haccepted]
  · next hrefused => simp [hrefused]

/-- Verifying the signature that was made accepts it. -/
theorem verify_publicKeyOf (message : Bytes) :
    verify G (publicKeyOf G seed).toList message
      (signDigest G seed (publicKeyOf G seed) (sha512 message)) = .ok () := by
  rw [verify_publicKeyOf_eq_ok_iff laws seed message (noncePointOf_signDigest G seed _ _),
    responseOf_signDigest laws]
  exact ⟨response_lt_order laws seed _ _, rfl⟩

end

/-- Whoever gets a signature has a seed and the public key derived from it. -/
theorem exists_seed_of_sign {G : SigningGroup} {secretKey publicKey message : Bytes}
    {signature : SignatureBytes} (h : sign G secretKey publicKey message = .ok signature) :
    ∃ seed : Octets 32, seed.toList = secretKey ∧ (publicKeyOf G seed).toList = publicKey := by
  obtain ⟨seed, key, rfl, rfl, -, hderived⟩ := isKeyPair_of_sign G h
  exact ⟨seed, rfl, congrArg Octets.toList hderived⟩

/-- What was signed under any keys verifies under the public one. -/
theorem verify_of_sign {G : SigningGroup} (laws : G.Laws) {secretKey publicKey message : Bytes}
    {signature : SignatureBytes} (h : sign G secretKey publicKey message = .ok signature) :
    verify G publicKey message signature = .ok () := by
  obtain ⟨seed, rfl, rfl⟩ := exists_seed_of_sign h
  rw [sign_publicKeyOf laws] at h
  rw [← Except.ok.inj h]
  exact verify_publicKeyOf laws seed message

/-! ## Sealed images -/

/-- Whatever is sealed with these signatures passes the verification under the development key. -/
theorem verifyImage_of_sealFirmware {G : SigningGroup} (laws : G.Laws)
    {secretKey firmware image : Bytes} {options : SealOptions}
    (h : sealFirmware (signer G) secretKey firmware options = .ok image) :
    verifyImage (signer G) TrustedKey.development.key.toList image = .ok () := by
  obtain ⟨signature, hsign, rfl⟩ := exists_signature_of_sealFirmware h
  rw [verifyImage_sealedImage]
  exact verify_of_sign laws hsign

/-- With the disclosed seed every firmware can be sealed, and the image passes. -/
theorem exists_verified_image {seed : Octets 32} (h : developmentSeed = .ok seed)
    (firmware : Bytes) (options : SealOptions) :
    ∃ image, sealFirmware ed25519ph seed.toList firmware options = .ok image ∧
      verifyImage ed25519ph TrustedKey.development.key.toList image = .ok () := by
  have hsign := sign_publicKeyOf Edwards25519.laws seed
    (sealedBytes (stripEnvelope firmware) options)
  rw [publicKeyOf_of_developmentSeed h] at hsign
  have hseal : sealFirmware ed25519ph seed.toList firmware options = .ok _ :=
    signAndWrap_eq_ok_iff.mpr ⟨_, hsign, rfl⟩
  exact ⟨_, hseal, verifyImage_of_sealFirmware Edwards25519.laws hseal⟩

/-- Over a group with the laws every seed signs every message under its public key, the response is
below the order, and the signature verifies; with the same nonce point only a response below the
order with the same multiple of the base point does. So whatever is sealed with these signatures
passes the verification under the development key. -/
theorem every_signature_verifies {G : SigningGroup} (laws : G.Laws) :
    (∀ (seed : Octets 32) (message : Bytes), ∃ signature,
      sign G seed.toList (publicKeyOf G seed).toList message = .ok signature ∧
      responseOf signature < G.order ∧
      verify G (publicKeyOf G seed).toList message signature = .ok () ∧
      ∀ other, noncePointOf other = noncePointOf signature →
        (verify G (publicKeyOf G seed).toList message other = .ok () ↔
          responseOf other < G.order ∧
            G.multiple (responseOf other) G.base = G.multiple (responseOf signature) G.base)) ∧
    ∀ (secretKey firmware image : Bytes) (options : SealOptions),
      sealFirmware (signer G) secretKey firmware options = .ok image →
      verifyImage (signer G) TrustedKey.development.key.toList image = .ok () := by
  constructor
  · intro seed message
    refine ⟨_, sign_publicKeyOf laws seed message, ?_, verify_publicKeyOf laws seed message, ?_⟩
    · rw [responseOf_signDigest laws]
      exact response_lt_order laws seed _ _
    · intro other h
      rw [noncePointOf_signDigest] at h
      rw [verify_publicKeyOf_eq_ok_iff laws seed message h, responseOf_signDigest laws]
  · intro secretKey firmware image options h
    exact verifyImage_of_sealFirmware laws h

/-- The curve with the disclosed seed: it signs the empty message, and it seals the empty
firmware. -/
theorem every_signature_verifies_with_developmentSeed :
    ∃ seed image, developmentSeed = .ok seed ∧
      (∃ signature,
        ed25519ph.sign seed.toList TrustedKey.development.key.toList [] = .ok signature ∧
        responseOf signature < edwards25519.order ∧
        ed25519ph.verify TrustedKey.development.key.toList [] signature = .ok ()) ∧
      sealFirmware ed25519ph seed.toList [] {} = .ok image ∧
      verifyImage ed25519ph TrustedKey.development.key.toList image = .ok () := by
  obtain ⟨hsign, hverify⟩ := every_signature_verifies Edwards25519.laws
  have hsome := map_publicKeyOf_developmentSeed
  cases hseed : developmentSeed with
  | error e =>
    rw [hseed] at hsome
    cases hsome
  | ok seed =>
    rw [hseed] at hsome
    have hkey : publicKeyOf edwards25519 seed = TrustedKey.development.key := Option.some.inj hsome
    obtain ⟨image, hseal, -⟩ := exists_verified_image hseed [] {}
    obtain ⟨signature, hempty, hlt, haccepted, -⟩ := hsign seed []
    rw [hkey] at hempty haccepted
    exact ⟨seed, image, rfl, ⟨signature, hempty, hlt, haccepted⟩, hseal, hverify _ _ _ _ hseal⟩

end Ed25519ph

end FirmwareSeal
