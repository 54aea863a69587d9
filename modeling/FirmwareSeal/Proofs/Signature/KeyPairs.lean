import FirmwareSeal.Key.Development
import FirmwareSeal.Proofs.Image.Layout
import FirmwareSeal.Signature.Ed25519ph

/-!
# Which keys are refused

Before anything is signed the keys are looked at: the length of the secret key, the length of the
public one, whether the public one decodes to a point, and whether it is the one that is derived
from the secret one. The first fault is reported. What follows cannot fail, so the keys alone decide
whether a signature is made, and why not; neither the message nor the firmware has a say in it.
-/

namespace FirmwareSeal

/-- Whether the keys alone decide if a signer refuses, and why. -/
def Signer.RefusesByKeys (signer : Signer) : Prop :=
  ∀ secretKey publicKey,
    (∀ message, ∃ signature, signer.sign secretKey publicKey message = .ok signature) ∨
    ∃ e, ∀ message, signer.sign secretKey publicKey message = .error e

/-- With such a signer the secret key alone decides if firmware can be sealed, and why not. -/
theorem Signer.RefusesByKeys.sealFirmware {signer : Signer} (h : signer.RefusesByKeys)
    (secretKey : Bytes) :
    (∀ firmware options, ∃ image, sealFirmware signer secretKey firmware options = .ok image) ∨
    ∃ e, ∀ firmware options, FirmwareSeal.sealFirmware signer secretKey firmware options = .error e := by
  rcases h secretKey TrustedKey.development.key.toList with hsigned | ⟨e, hrefused⟩
  · left
    intro firmware options
    obtain ⟨signature, hsign⟩ := hsigned (sealedBytes (stripEnvelope firmware) options)
    exact ⟨_, signAndWrap_eq_ok_iff.mpr ⟨signature, hsign, rfl⟩⟩
  · right
    refine ⟨e, ?_⟩
    intro firmware options
    exact signAndWrap_eq_error_iff.mpr (hrefused _)

namespace Ed25519ph

section

variable (G : SigningGroup)

/-! ## Key pairs -/

/-- A seed and a public key belong together if the key decodes and is the one of the seed. -/
theorem checkKeyPair_eq_ok_iff {seed publicKey : Octets 32} :
    checkKeyPair G seed publicKey = .ok () ↔
      (G.decode? publicKey).isSome ∧ publicKeyOf G seed = publicKey := by
  unfold checkKeyPair
  cases G.decode? publicKey with
  | none => simp
  | some P => by_cases h : publicKeyOf G seed = publicKey <;> simp [h]

/-- They do not if the key does not decode, or else if it is not the one of the seed. -/
theorem checkKeyPair_eq_error_iff {seed publicKey : Octets 32} {e : SigningError} :
    checkKeyPair G seed publicKey = .error e ↔
      G.decode? publicKey = none ∧
        e = .signing .init "signature error: Cannot decompress Edwards point" ∨
      (G.decode? publicKey).isSome ∧ publicKeyOf G seed ≠ publicKey ∧
        e = .signing .init "signature error: Mismatched Keypair detected" := by
  unfold checkKeyPair
  cases G.decode? publicKey with
  | none => simp [eq_comm]
  | some P => by_cases h : publicKeyOf G seed = publicKey <;> simp [h, eq_comm]

/-- Whether two byte strings are a key pair: both have 32 bytes, the public key decodes to a point,
and it is the one derived from the secret key. -/
def IsKeyPair (secretKey publicKey : Bytes) : Prop :=
  ∃ seed key : Octets 32, seed.toList = secretKey ∧ key.toList = publicKey ∧
    (G.decode? key).isSome ∧ publicKeyOf G seed = key

/-- A key pair is accepted by the check. -/
theorem isKeyPair_toList_iff {seed publicKey : Octets 32} :
    IsKeyPair G seed.toList publicKey.toList ↔ checkKeyPair G seed publicKey = .ok () := by
  rw [checkKeyPair_eq_ok_iff]
  constructor
  · rintro ⟨seed', publicKey', hseed, hkey, h⟩
    rw [Octets.ext hseed, Octets.ext hkey] at h
    exact h
  · intro h
    exact ⟨seed, publicKey, rfl, rfl, h⟩

/-- The keys that a signature is made with, or why none is made. -/
def admitKeys (secretKey publicKey : Bytes) : Except SigningError (Octets 32 × Octets 32) := do
  let seed ← Signer.keyOctets .secretHalf secretKey
  let key ← Signer.keyOctets .publicHalf publicKey
  checkKeyPair G seed key
  return (seed, key)

section

variable {secretKey publicKey : Bytes}

/-- The length of the secret key is looked at first. -/
theorem admitKeys_of_length_secretKey_ne (h : secretKey.length ≠ 32) :
    admitKeys G secretKey publicKey = .error (.keyLength .secretHalf secretKey.length) := by
  unfold admitKeys
  rw [Signer.keyOctets_eq_error_iff.mpr ⟨h, rfl⟩]
  rfl

/-- The length of the public key is looked at next. -/
theorem admitKeys_of_length_publicKey_ne (seed : Octets 32) (h : publicKey.length ≠ 32) :
    admitKeys G seed.toList publicKey = .error (.keyLength .publicHalf publicKey.length) := by
  unfold admitKeys
  rw [Signer.keyOctets_eq_ok_iff.mpr rfl, Signer.keyOctets_eq_error_iff.mpr ⟨h, rfl⟩]
  rfl

end

/-- Keys of the right length are only checked for belonging together. -/
theorem admitKeys_toList (seed publicKey : Octets 32) :
    admitKeys G seed.toList publicKey.toList =
      (checkKeyPair G seed publicKey).map fun _ ↦ (seed, publicKey) := by
  unfold admitKeys
  rw [Signer.keyOctets_eq_ok_iff.mpr rfl, Signer.keyOctets_eq_ok_iff.mpr rfl]
  change (checkKeyPair G seed publicKey >>= fun _ ↦ _) = _
  cases checkKeyPair G seed publicKey with
  | error e => rfl
  | ok _ => rfl

/-- The keys of a pair have 32 bytes. -/
theorem IsKeyPair.length_eq {secretKey publicKey : Bytes} (h : IsKeyPair G secretKey publicKey) :
    secretKey.length = 32 ∧ publicKey.length = 32 := by
  obtain ⟨seed, key, rfl, rfl, -⟩ := h
  exact ⟨seed.length_toList, key.length_toList⟩

/-- What can come of looking at two keys. -/
theorem admitKeys_cases (secretKey publicKey : Bytes) :
    (secretKey.length ≠ 32 ∧
      admitKeys G secretKey publicKey = .error (.keyLength .secretHalf secretKey.length)) ∨
    (secretKey.length = 32 ∧ publicKey.length ≠ 32 ∧
      admitKeys G secretKey publicKey = .error (.keyLength .publicHalf publicKey.length)) ∨
    (secretKey.length = 32 ∧ publicKey.length = 32 ∧ ¬IsKeyPair G secretKey publicKey ∧
      ∃ reason, (reason = "signature error: Cannot decompress Edwards point" ∨
          reason = "signature error: Mismatched Keypair detected") ∧
        admitKeys G secretKey publicKey = .error (.signing .init reason)) ∨
    (IsKeyPair G secretKey publicKey ∧ ∃ keys, admitKeys G secretKey publicKey = .ok keys) := by
  by_cases hsecret : secretKey.length = 32
  · obtain ⟨seed, rfl⟩ : ∃ seed : Octets 32, seed.toList = secretKey := ⟨⟨_, hsecret⟩, rfl⟩
    by_cases hpublic : publicKey.length = 32
    · obtain ⟨key, rfl⟩ : ∃ key : Octets 32, key.toList = publicKey := ⟨⟨_, hpublic⟩, rfl⟩
      right
      right
      rw [isKeyPair_toList_iff, admitKeys_toList]
      cases h : checkKeyPair G seed key with
      | error e =>
        left
        refine ⟨hsecret, hpublic, nofun, ?_⟩
        rcases (checkKeyPair_eq_error_iff G).mp h with ⟨-, rfl⟩ | ⟨-, -, rfl⟩
        · exact ⟨_, .inl rfl, rfl⟩
        · exact ⟨_, .inr rfl, rfl⟩
      | ok _ => exact .inr ⟨rfl, _, rfl⟩
    · exact .inr (.inl ⟨hsecret, hpublic, admitKeys_of_length_publicKey_ne G seed hpublic⟩)
  · exact .inl ⟨hsecret, admitKeys_of_length_secretKey_ne G hsecret⟩

/-! ## Signing and verifying -/

/-- Signing looks at the keys first, and cannot fail any more after that. -/
theorem sign_eq_map (secretKey publicKey message : Bytes) :
    sign G secretKey publicKey message =
      (admitKeys G secretKey publicKey).map fun keys ↦
        signDigest G keys.1 keys.2 (sha512 message) := by
  unfold sign admitKeys
  cases Signer.keyOctets .secretHalf secretKey with
  | error e => rfl
  | ok seed =>
    cases Signer.keyOctets .publicHalf publicKey with
    | error e => rfl
    | ok key =>
      change (checkKeyPair G seed key >>= fun _ ↦ _) =
        (checkKeyPair G seed key >>= fun _ ↦ _).map _
      cases checkKeyPair G seed key with
      | error e => rfl
      | ok _ => rfl

/-- The keys alone decide whether these signers refuse. -/
theorem refusesByKeys_signer : (signer G).RefusesByKeys := by
  intro secretKey publicKey
  change (∀ message, ∃ signature, sign G secretKey publicKey message = .ok signature) ∨
    ∃ e, ∀ message, sign G secretKey publicKey message = .error e
  simp only [sign_eq_map]
  cases admitKeys G secretKey publicKey with
  | error e => exact .inr ⟨e, fun _ ↦ rfl⟩
  | ok keys => exact .inl fun message ↦ ⟨_, rfl⟩

/-- Only key pairs sign. -/
theorem isKeyPair_of_sign {secretKey publicKey message : Bytes} {signature : SignatureBytes}
    (h : sign G secretKey publicKey message = .ok signature) : IsKeyPair G secretKey publicKey := by
  rw [sign_eq_map] at h
  obtain ⟨-, hkeys⟩ | ⟨-, -, hkeys⟩ | ⟨-, -, -, reason, -, hkeys⟩ | ⟨hpair, -⟩ :=
    admitKeys_cases G secretKey publicKey
  · rw [hkeys] at h
    cases h
  · rw [hkeys] at h
    cases h
  · rw [hkeys] at h
    cases h
  · exact hpair

/-- Keys of the right length are only checked for belonging together. -/
theorem sign_toList (seed publicKey : Octets 32) (message : Bytes) :
    sign G seed.toList publicKey.toList message =
      (checkKeyPair G seed publicKey).map fun _ ↦ signDigest G seed publicKey (sha512 message) := by
  rw [sign_eq_map, admitKeys_toList]
  cases checkKeyPair G seed publicKey with
  | error e => rfl
  | ok _ => rfl

/-- With a key of the right length a signature is accepted exactly if its equation holds. -/
theorem verify_toList (publicKey : Octets 32) (message : Bytes) (signature : SignatureBytes) :
    verify G publicKey.toList message signature =
      if verifyDigest G publicKey (sha512 message) signature then .ok ()
      else .error .verification := by
  have hkey : Signer.keyOctets .publicHalf publicKey.toList = .ok publicKey :=
    Signer.keyOctets_eq_ok_iff.mpr rfl
  unfold verify
  rw [hkey]
  rfl

/-- A key of another length is refused with that length. -/
theorem verify_of_length_ne {publicKey : Bytes} (h : publicKey.length ≠ 32) (message : Bytes)
    (signature : SignatureBytes) :
    verify G publicKey message signature = .error (.keyLength .publicHalf publicKey.length) := by
  unfold verify
  rw [Signer.keyOctets_eq_error_iff.mpr ⟨h, rfl⟩]
  rfl

end

/-! ## Refusals -/

/-- The development key of the table is the one of the disclosed seed. -/
theorem map_publicKeyOf_developmentSeed :
    developmentSeed.toOption.map (publicKeyOf edwards25519) = some TrustedKey.development.key := by
  decide +kernel

/-- Whatever seed the text of the disclosed key has, the development key is derived from it. -/
theorem publicKeyOf_of_developmentSeed {seed : Octets 32} (h : developmentSeed = .ok seed) :
    publicKeyOf edwards25519 seed = TrustedKey.development.key := by
  have hkey := map_publicKeyOf_developmentSeed
  rw [h] at hkey
  exact Option.some.inj hkey

/-- The text of the disclosed key has a seed. -/
theorem exists_developmentSeed : ∃ seed, developmentSeed = .ok seed := by
  have hkey := map_publicKeyOf_developmentSeed
  cases h : developmentSeed with
  | ok seed => exact ⟨seed, rfl⟩
  | error e =>
    rw [h] at hkey
    cases hkey

/-- Signing refuses a secret key that has not 32 bytes for its length, else a public key for its
length, else keys that are no pair, at the first stage and for one of two reasons; it signs with all
others and knows no other errors. Verifying refuses a public key for its length and otherwise
accepts or not. So two keys sign every message, or are refused with one error whatever the message;
and a secret key seals every firmware with all options, or is refused with one error for all. -/
theorem keys_alone_decide_refusal (G : SigningGroup) :
    (∀ secretKey publicKey message,
      (sign G secretKey publicKey message = .error (.keyLength .secretHalf secretKey.length) ↔
        secretKey.length ≠ 32) ∧
      (sign G secretKey publicKey message = .error (.keyLength .publicHalf publicKey.length) ↔
        secretKey.length = 32 ∧ publicKey.length ≠ 32) ∧
      ((∃ reason, sign G secretKey publicKey message = .error (.signing .init reason)) ↔
        secretKey.length = 32 ∧ publicKey.length = 32 ∧ ¬IsKeyPair G secretKey publicKey) ∧
      ((∃ signature, sign G secretKey publicKey message = .ok signature) ↔
        IsKeyPair G secretKey publicKey) ∧
      ∀ e, sign G secretKey publicKey message = .error e →
        e = .keyLength .secretHalf secretKey.length ∨ e = .keyLength .publicHalf publicKey.length ∨
        e = .signing .init "signature error: Cannot decompress Edwards point" ∨
        e = .signing .init "signature error: Mismatched Keypair detected") ∧
    (∀ publicKey message signature,
      (verify G publicKey message signature = .error (.keyLength .publicHalf publicKey.length) ↔
        publicKey.length ≠ 32) ∧
      (publicKey.length = 32 → verify G publicKey message signature = .ok () ∨
        verify G publicKey message signature = .error .verification)) ∧
    (∀ secretKey publicKey,
      (∀ message, ∃ signature, sign G secretKey publicKey message = .ok signature) ∨
      ∃ e, ∀ message, sign G secretKey publicKey message = .error e) ∧
    ∀ secretKey,
      (∀ firmware options, ∃ image,
        sealFirmware (signer G) secretKey firmware options = .ok image) ∨
      ∃ e, ∀ firmware options, sealFirmware (signer G) secretKey firmware options = .error e := by
  refine ⟨?_, ?_, refusesByKeys_signer G, (refusesByKeys_signer G).sealFirmware⟩
  · intro secretKey publicKey message
    rw [sign_eq_map]
    obtain ⟨hsecret, h⟩ | ⟨hsecret, hpublic, h⟩ | ⟨hsecret, hpublic, hpair, reason, hreason, h⟩ |
      ⟨hpair, keys, h⟩ := admitKeys_cases G secretKey publicKey
    · have hpair : ¬IsKeyPair G secretKey publicKey := fun hpair ↦ hsecret hpair.length_eq.1
      simp [h, Except.map, hsecret, hpair]
    · have hpair : ¬IsKeyPair G secretKey publicKey := fun hpair ↦ hpublic hpair.length_eq.2
      simp [h, Except.map, hsecret, hpublic, hpair]
    · simp [h, Except.map, hsecret, hpublic, hpair, hreason]
    · obtain ⟨hsecret, hpublic⟩ := hpair.length_eq
      simp [h, Except.map, hsecret, hpublic, hpair]
  · intro publicKey message signature
    by_cases hpublic : publicKey.length = 32
    · obtain ⟨key, rfl⟩ : ∃ key : Octets 32, key.toList = publicKey := ⟨⟨_, hpublic⟩, rfl⟩
      rw [verify_toList]
      split <;> simp
    · simp [verify_of_length_ne G hpublic, hpublic]

/-- Over edwards25519, keys of 31 and 33 bytes are refused for the length of the secret one, and for
that of the public one if only that is wrong. The zero seed does not belong to the development key;
the disclosed seed does, and so it seals every firmware. -/
theorem keys_alone_decide_refusal_over_edwards25519 :
    (∀ message, ed25519ph.sign (zeros 31) (zeros 33) message =
      .error (.keyLength .secretHalf 31)) ∧
    (∀ message, ed25519ph.sign (zeros 32) (zeros 33) message =
      .error (.keyLength .publicHalf 33)) ∧
    (∃ reason, ed25519ph.sign (zeros 32) TrustedKey.development.key.toList [] =
        .error (.signing .init reason) ∧
      (reason = "signature error: Cannot decompress Edwards point" ∨
        reason = "signature error: Mismatched Keypair detected")) ∧
    (ed25519ph.verify TrustedKey.development.key.toList [] (.zero 64) = .ok () ∨
      ed25519ph.verify TrustedKey.development.key.toList [] (.zero 64) = .error .verification) ∧
    ∃ seed, developmentSeed = .ok seed ∧ ∀ firmware options, ∃ image,
      sealFirmware ed25519ph seed.toList firmware options = .ok image := by
  obtain ⟨hsign, hverify, -, hseal⟩ := keys_alone_decide_refusal edwards25519
  refine ⟨?_, ?_, ?_, ?_, ?_⟩
  · intro message
    exact (hsign (zeros 31) (zeros 33) message).1.mpr (by decide)
  · intro message
    exact (hsign (zeros 32) (zeros 33) message).2.1.mpr (by decide)
  · have hpair : ¬IsKeyPair edwards25519 (zeros 32) TrustedKey.development.key.toList := by
      rintro ⟨seed, key, hseed, hkey, -, hderived⟩
      have hzero : seed = Octets.zero 32 := Octets.ext hseed
      rw [hzero, Octets.ext hkey] at hderived
      exact absurd hderived (by decide +kernel)
    obtain ⟨-, -, hrefused, -, herrors⟩ :=
      hsign (zeros 32) TrustedKey.development.key.toList []
    obtain ⟨reason, h⟩ := hrefused.mpr ⟨by decide, by decide, hpair⟩
    refine ⟨reason, h, ?_⟩
    simpa using herrors _ h
  · exact (hverify TrustedKey.development.key.toList [] (.zero 64)).2 (by decide)
  · obtain ⟨seed, hseed⟩ := exists_developmentSeed
    have hpair : IsKeyPair edwards25519 seed.toList TrustedKey.development.key.toList :=
      ⟨seed, _, rfl, rfl, by decide +kernel, publicKeyOf_of_developmentSeed hseed⟩
    refine ⟨seed, hseed, (hseal seed.toList).resolve_right ?_⟩
    rintro ⟨e, hrefused⟩
    have hnone := signAndWrap_eq_error_iff.mp (hrefused [] {})
    obtain ⟨signature, h⟩ := (hsign _ _ (sealedBytes (stripEnvelope []) {})).2.2.2.1.mpr hpair
    cases h.symm.trans hnone

end Ed25519ph

end FirmwareSeal
