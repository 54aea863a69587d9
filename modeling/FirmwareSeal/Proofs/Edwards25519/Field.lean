import FirmwareSeal.Proofs.Edwards25519.Prime
import Mathlib.FieldTheory.Finite.Basic

/-!
# The field of coordinates

Integers modulo a prime are a field, with the power by `fieldSize - 2` for the reciprocal. Minus
one has a root in it and the constant `d` of the curve has none; `d` is told from a square by its
power by half of `fieldSize - 1`, which is minus one.
-/

namespace FirmwareSeal

/-- A commutative ring with reciprocals is a field. -/
abbrev fieldOfReciprocal {K : Type} [CommRing K] [Nontrivial K] (reciprocal : K → K)
    (hzero : reciprocal 0 = 0) (hmul : ∀ x, x ≠ 0 → x * reciprocal x = 1) : Field K where
  inv := reciprocal
  inv_zero := hzero
  mul_inv_cancel := hmul
  nnqsmul := _
  nnqsmul_def _ _ := rfl
  qsmul := _
  qsmul_def _ _ := rfl

namespace Edwards25519

open Fin.CommRing

/-- A power by binary digits is the power. -/
theorem power_eq_pow (x : Coordinate) (n : Nat) : power x n = x ^ n := by
  refine repeated_rel (R := fun (y : Coordinate) m ↦ y = x ^ m) ?_ ?_ ?_ n
  · intro y z l m hy hz
    rw [hy, hz, pow_add]
  · rw [pow_zero]
  · rw [pow_one]

/-- A coordinate other than zero has the power one by the number of such coordinates. -/
theorem pow_fieldSize_sub_one {x : Coordinate} (h : x ≠ 0) : x ^ (fieldSize - 1) = 1 := by
  have : Fact fieldSize.Prime := ⟨prime_fieldSize⟩
  have hx : ZMod.finEquiv fieldSize x ≠ 0 := by
    rwa [Ne, map_eq_zero_iff _ (ZMod.finEquiv fieldSize).injective]
  apply (ZMod.finEquiv fieldSize).injective
  rw [map_pow, map_one, ZMod.pow_card_sub_one_eq_one hx]

instance : Nontrivial Coordinate := ⟨0, 1, by decide⟩

/-- Zero is its own reciprocal. -/
theorem inverse_zero : inverse 0 = 0 := by decide +kernel

/-- A coordinate other than zero times its reciprocal is one. -/
theorem mul_inverse (x : Coordinate) (h : x ≠ 0) : x * inverse x = 1 := by
  rw [inverse, power_eq_pow, ← pow_succ']
  exact pow_fieldSize_sub_one h

instance : Field Coordinate := fieldOfReciprocal inverse inverse_zero mul_inverse

/-! ## Squares -/

/-- Half the power that is one. -/
theorem mul_self_pow_half {x : Coordinate} (h : x ≠ 0) : (x * x) ^ ((fieldSize - 1) / 2) = 1 := by
  rw [← pow_two, ← pow_mul]
  exact pow_fieldSize_sub_one h

/-- Only one and minus one are left as powers by half of `fieldSize - 1`. -/
theorem pow_half_eq_or {x : Coordinate} (h : x ≠ 0) :
    x ^ ((fieldSize - 1) / 2) = 1 ∨ x ^ ((fieldSize - 1) / 2) = -1 := by
  rw [← mul_self_eq_one_iff, ← mul_pow]
  exact mul_self_pow_half h

/-- The constant that stands for a root of minus one is one. -/
theorem rootOfMinusOne_mul_self : rootOfMinusOne * rootOfMinusOne = -1 := by decide +kernel

/-- The power of `d` by half of `fieldSize - 1` is minus one. -/
theorem d_pow_half : d ^ ((fieldSize - 1) / 2) = -1 := by
  rw [← power_eq_pow]
  decide +kernel

/-- The constant of the curve is not a quotient of squares. -/
theorem eq_zero_of_mul_self_eq {r s : Coordinate} (h : r * r = d * (s * s)) : s = 0 := by
  by_contra hs
  have hd : d ≠ 0 := by decide
  have hr : r ≠ 0 := by
    rintro rfl
    rw [mul_zero] at h
    exact mul_ne_zero hd (mul_ne_zero hs hs) h.symm
  have hone : (1 : Coordinate) = -1 := by
    calc
      (1 : Coordinate) = (r * r) ^ ((fieldSize - 1) / 2) := (mul_self_pow_half hr).symm
      _ = d ^ ((fieldSize - 1) / 2) * (s * s) ^ ((fieldSize - 1) / 2) := by rw [h, mul_pow]
      _ = -1 := by rw [d_pow_half, mul_self_pow_half hs, mul_one]
  exact absurd hone (by decide)

end Edwards25519

end FirmwareSeal
