import FirmwareSeal.Proofs.Edwards25519.Encoding
import FirmwareSeal.Proofs.Edwards25519.Multiples
import FirmwareSeal.Proofs.Signature.GroupLaws

/-!
# The curve is a group to sign with

The multiples of the base point are a subgroup of the points on the curve. The order of the base
point is computed: its multiple by that number is the neutral point. So edwards25519 has every law
that signing and verifying rely on.
-/

namespace FirmwareSeal

namespace Edwards25519

open CurvePoint (base)

/-- A multiple of the base point is one in the group of the curve. -/
theorem isMultiple_iff {P : Point} :
    edwards25519.IsMultiple P ↔ ∃ n : Nat, (n • base).1 = P := by
  refine exists_congr fun n ↦ ?_
  rw [← multiple_eq_nsmul]
  rfl

/-- It is on the curve. -/
theorem onCurve_of_isMultiple {P : Point} (h : edwards25519.IsMultiple P) : P.OnCurve := by
  obtain ⟨n, rfl⟩ := isMultiple_iff.mp h
  exact (n • base).2

/-- The neutral point of the curve. -/
theorem neutral_eq : edwards25519.neutral = Point.zero := multiple_zero Point.onCurve_base

/-- The multiple by the order is neutral. -/
theorem order_nsmul_base : edwards25519.order • base = 0 := by
  apply Subtype.ext
  rw [← multiple_eq_nsmul]
  decide +kernel

/-- The opposite of a multiple is a multiple. -/
theorem neg_nsmul_base (n : Nat) : -(n • base) = ((edwards25519.order - 1) * n) • base := by
  have hpos : edwards25519.order - 1 + 1 = edwards25519.order := by decide
  rw [neg_eq_iff_add_eq_zero, ← add_nsmul, Nat.add_comm, ← Nat.succ_mul, Nat.succ_eq_add_one, hpos,
    mul_nsmul, order_nsmul_base, smul_zero]

/-- The curve has the laws that signatures rely on. -/
theorem laws : edwards25519.Laws where
  order_pos := by decide
  order_le := by decide
  isMultiple_base := isMultiple_iff.mpr ⟨1, congrArg Subtype.val (one_nsmul base)⟩
  isMultiple_add := by
    intro P Q hP hQ
    obtain ⟨m, rfl⟩ := isMultiple_iff.mp hP
    obtain ⟨n, rfl⟩ := isMultiple_iff.mp hQ
    refine isMultiple_iff.mpr ⟨m + n, ?_⟩
    rw [add_nsmul, CurvePoint.coe_add]
    rfl
  isMultiple_neg := by
    intro P hP
    obtain ⟨n, rfl⟩ := isMultiple_iff.mp hP
    exact isMultiple_iff.mpr ⟨_, congrArg Subtype.val (neg_nsmul_base n).symm⟩
  add_assoc hP hQ hR :=
    Point.add_assoc (onCurve_of_isMultiple hP) (onCurve_of_isMultiple hQ) (onCurve_of_isMultiple hR)
  add_comm _ _ := Point.add_comm _ _
  neutral_add := by
    intro P _
    rw [neutral_eq]
    exact Point.zero_add P
  neg_add := by
    intro P hP
    rw [neutral_eq]
    exact Point.neg_add (onCurve_of_isMultiple hP)
  multiple_zero := by
    intro P hP
    rw [neutral_eq]
    exact multiple_zero (onCurve_of_isMultiple hP)
  multiple_succ n hP := multiple_succ (onCurve_of_isMultiple hP) n
  multiple_order := by
    rw [neutral_eq]
    change multiple edwards25519.order base.1 = Point.zero
    rw [multiple_eq_nsmul, order_nsmul_base]
    rfl
  decode?_encode := by
    intro P hP
    simp only [edwards25519]
    exact decode?_encode (onCurve_of_isMultiple hP)

end Edwards25519

end FirmwareSeal
