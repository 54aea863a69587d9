import FirmwareSeal.Proofs.Image.Layout

/-!
# What a verification looks at

Verifying an image reads the signature behind the jump word and all bytes behind the header, at the
places where signing puts them. Every other byte of the header is free: images that agree where a
verification looks get the same verdict from every signer. No place that is looked at is idle
either, since for images that differ there some signer has different verdicts.
-/

namespace FirmwareSeal

/-- Whether a place of an image belongs to its signature or lies behind the header. -/
def IsVerified (place : Nat) : Prop := 4 ≤ place ∧ place < 68 ∨ 132 ≤ place

instance : DecidablePred IsVerified :=
  fun place ↦ inferInstanceAs (Decidable (4 ≤ place ∧ place < 68 ∨ 132 ≤ place))

/-! ## The verdict on an image -/

/-- An image with a full header has 64 bytes behind the jump word. -/
theorem length_take_drop_of_le {image : Bytes} (h : signedHeaderLength ≤ image.length) :
    ((image.drop 4).take 64).length = 64 := by
  have hin : 64 ≤ image.length - 4 := by
    rw [signedHeaderLength] at h
    omega
  rw [List.length_take, List.length_drop, Nat.min_eq_left hin]

/-- The signature in an image that has a full header. -/
def signatureIn (image : Bytes) (h : signedHeaderLength ≤ image.length) : SignatureBytes :=
  ⟨(image.drop 4).take 64, length_take_drop_of_le h⟩

/-- An image with a full header is judged by its signature and the bytes behind the header. -/
theorem verifyImage_of_le {image : Bytes} (h : signedHeaderLength ≤ image.length)
    (signer : Signer) (publicKey : Bytes) :
    verifyImage signer publicKey image =
      signer.verify publicKey (image.drop signedHeaderLength) (signatureIn image h) := by
  unfold verifyImage
  rw [dif_pos h]
  rfl

/-- An image without a full header is refused before any key is looked at. -/
theorem verifyImage_of_lt {image : Bytes} (h : image.length < signedHeaderLength)
    (signer : Signer) (publicKey : Bytes) :
    verifyImage signer publicKey image = .error .verification := by
  unfold verifyImage
  rw [dif_neg (Nat.not_le_of_lt h)]

/-- Images agree where a verification looks if they have one signature and one rest. -/
theorem agree_where_verified_iff {a b : Bytes} (ha : signedHeaderLength ≤ a.length)
    (hb : signedHeaderLength ≤ b.length) :
    (∀ k, IsVerified k → a[k]? = b[k]?) ↔
      signatureIn a ha = signatureIn b hb ∧
        a.drop signedHeaderLength = b.drop signedHeaderLength := by
  rw [← Octets.toList_inj, drop_eq_drop_iff]
  unfold signatureIn
  rw [take_drop_eq_take_drop_iff]
  constructor
  · intro h
    refine ⟨?_, ?_⟩
    · intro k hk hend
      exact h k (.inl ⟨hk, hend⟩)
    · intro k hk
      exact h k (.inr hk)
  · rintro ⟨hsignature, hrest⟩ k (⟨hk, hend⟩ | hk)
    · exact hsignature k hk hend
    · exact hrest k hk

/-- Images that agree where a verification looks get one verdict. -/
theorem verifyImage_congr {a b : Bytes} (ha : signedHeaderLength ≤ a.length)
    (hb : signedHeaderLength ≤ b.length) (h : ∀ k, IsVerified k → a[k]? = b[k]?)
    (signer : Signer) (publicKey : Bytes) :
    verifyImage signer publicKey a = verifyImage signer publicKey b := by
  obtain ⟨hsignature, hrest⟩ := (agree_where_verified_iff ha hb).mp h
  rw [verifyImage_of_le ha, verifyImage_of_le hb, hsignature, hrest]

/-! ## Nothing that is looked at is idle -/

/-- Accepts one signature of one message only. -/
def Signer.accepting (message : Bytes) (signature : SignatureBytes) : Signer where
  sign _ _ _ := .ok signature
  verify _ otherMessage otherSignature :=
    if otherMessage = message ∧ otherSignature = signature then .ok () else .error .verification

/-- It accepts nothing else. -/
theorem Signer.verify_accepting_eq_ok_iff (message other : Bytes)
    (signature otherSignature : SignatureBytes) (publicKey : Bytes) :
    (Signer.accepting message signature).verify publicKey other otherSignature = .ok () ↔
      other = message ∧ otherSignature = signature := by
  simp only [Signer.accepting]
  split
  · next h => exact iff_of_true rfl h
  · next h => exact iff_of_false (fun e ↦ nomatch e) h

/-- Images that get one verdict from every signer agree where a verification looks. -/
theorem agree_where_verified_of_verifyImage_eq {a b : Bytes} (ha : signedHeaderLength ≤ a.length)
    (hb : signedHeaderLength ≤ b.length)
    (h : ∀ signer publicKey, verifyImage signer publicKey a = verifyImage signer publicKey b) :
    ∀ k, IsVerified k → a[k]? = b[k]? := by
  -- The signer that accepts the second image and nothing else accepts the first one too.
  have hverdict := h (.accepting (b.drop signedHeaderLength) (signatureIn b hb)) []
  rw [verifyImage_of_le ha, verifyImage_of_le hb,
    (Signer.verify_accepting_eq_ok_iff _ _ _ _ _).mpr ⟨rfl, rfl⟩] at hverdict
  obtain ⟨hrest, hsignature⟩ := (Signer.verify_accepting_eq_ok_iff _ _ _ _ _).mp hverdict
  exact (agree_where_verified_iff ha hb).mpr ⟨hsignature, hrest⟩

/-! ## Signing and verifying meet at the same places -/

/-- Verifying the bytes of an image checks its signature against its sealed bytes. Images with a
full header get one verdict from every signer exactly if they agree on the signature and behind the
header, and a shorter image is refused. So an image keeps its verdict if its jump word and the
unused part of its header are overwritten. -/
theorem verification_covers_signature_and_sealed_bytes :
    (∀ (signer : Signer) (publicKey : Bytes) (image : SignedImage),
      verifyImage signer publicKey image.toBytes =
        signer.verify publicKey image.sealedData image.signature) ∧
    (∀ a b : Bytes, 132 ≤ a.length → 132 ≤ b.length →
      ((∀ signer publicKey, verifyImage signer publicKey a = verifyImage signer publicKey b) ↔
        ∀ k, IsVerified k → a[k]? = b[k]?)) ∧
    (∀ (signer : Signer) (publicKey image : Bytes), image.length < 132 →
      verifyImage signer publicKey image = .error .verification) ∧
    ∀ (signer : Signer) (secretKey publicKey message : Bytes) (signature : SignatureBytes),
      signer.sign secretKey publicKey message = .ok signature →
      signer.verify publicKey message signature = .ok () →
      ∃ image, signAndWrap signer secretKey publicKey message = .ok image ∧
        ∀ altered : Bytes, altered.length = image.length →
          (∀ k, IsVerified k → altered[k]? = image[k]?) →
          verifyImage signer publicKey altered = .ok () := by
  refine ⟨verifyImage_toBytes, ?_, fun signer publicKey image h ↦ verifyImage_of_lt h _ _, ?_⟩
  · intro a b ha hb
    constructor
    · exact agree_where_verified_of_verifyImage_eq ha hb
    · intro h signer publicKey
      exact verifyImage_congr ha hb h signer publicKey
  · intro signer secretKey publicKey message signature hsign hverify
    let image := SignedImage.ofSignature signature message
    have hlength : signedHeaderLength ≤ image.toBytes.length := by
      rw [SignedImage.length_toBytes]
      exact Nat.le_add_right _ _
    refine ⟨image.toBytes, ?_, ?_⟩
    · rw [signAndWrap_eq_map, hsign]
      rfl
    · intro altered haltered hagree
      rw [verifyImage_congr (haltered ▸ hlength) hlength hagree, verifyImage_toBytes]
      exact hverify

/-- An image around no sealed bytes verifies with another byte in the unused part of its header, two
headers with different first bytes get one verdict, and one byte less is refused. -/
theorem verification_covers_signature_and_sealed_bytes_at_empty_message :
    (∃ image, signAndWrap .digest (zeros 32) [] [] = .ok image ∧ image.length = 132 ∧
      verifyImage .digest [] (image.set 100 0x55) = .ok ()) ∧
    (∀ signer publicKey, verifyImage signer publicKey (zeros 132) =
      verifyImage signer publicKey ((zeros 132).set 0 1)) ∧
    verifyImage .digest [] (zeros 131) = .error .verification := by
  obtain ⟨-, hagree, hshort, haltered⟩ := verification_covers_signature_and_sealed_bytes
  refine ⟨?_, ?_, hshort _ _ _ (by simp)⟩
  · obtain ⟨image, hwrap, hverify⟩ := haltered .digest (zeros 32) [] [] (sha512 []) rfl (if_pos rfl)
    have hlength : image.length = 132 := by
      obtain ⟨signature, -, rfl⟩ := exists_signature_of_signAndWrap hwrap
      exact SignedImage.length_toBytes _
    refine ⟨image, hwrap, hlength, hverify _ List.length_set ?_⟩
    intro k hk
    have hne : 100 ≠ k := by
      rintro rfl
      exact absurd hk (by decide)
    exact List.getElem?_set_ne hne
  · refine (hagree _ _ (by simp) (by simp)).mpr ?_
    intro k hk
    have hne : 0 ≠ k := by
      rintro rfl
      exact absurd hk (by decide)
    exact (List.getElem?_set_ne hne).symm

end FirmwareSeal
