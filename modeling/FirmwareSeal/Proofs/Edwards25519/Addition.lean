import FirmwareSeal.Proofs.Edwards25519.Field
import Mathlib.Tactic.FieldSimp
import Mathlib.Tactic.LinearCombination

/-!
# Addition on the curve

The addition law divides by one plus and one minus a product of the coordinates. Since the constant
`d` is not a square, neither is zero for points on the curve, so the law holds for every two of
them. Their sum is on the curve again, and sums may be regrouped. With the denominators cleared
each of these is an identity between polynomials that follows from the curve equations, multiplied
by the factors that the proofs list.
-/

namespace FirmwareSeal

namespace Edwards25519

open Fin.CommRing

namespace Point

attribute [ext] Point

/-- The curve equation. -/
def OnCurve (p : Point) : Prop :=
  -(p.x * p.x) + p.y * p.y = 1 + d * (p.x * p.x) * (p.y * p.y)

instance (p : Point) : Decidable p.OnCurve := inferInstanceAs (Decidable (_ = _))

/-- What the denominators of a sum differ from one by. -/
def cross (p q : Point) : Coordinate := d * (p.x * q.x) * (p.y * q.y)

/-- The numerator of the first coordinate of a sum. -/
def numX (p q : Point) : Coordinate := p.x * q.y + p.y * q.x

/-- The numerator of the second. -/
def numY (p q : Point) : Coordinate := p.y * q.y + p.x * q.x

/-- The first coordinate of a sum is its numerator over one plus the cross product. -/
theorem add_x (p q : Point) : (p.add q).x = numX p q * (1 + cross p q)⁻¹ := rfl

/-- The second is its numerator over one minus the cross product. -/
theorem add_y (p q : Point) : (p.add q).y = numY p q * (1 - cross p q)⁻¹ := rfl

/-! ## The neutral point and the opposite -/

/-- The neutral point is on the curve. -/
theorem onCurve_zero : zero.OnCurve := by decide +kernel

/-- The base point is on the curve. -/
theorem onCurve_base : base.OnCurve := by decide +kernel

variable {p q r : Point}

/-- The opposite of a point on the curve is on the curve. -/
theorem onCurve_neg (hp : p.OnCurve) : p.neg.OnCurve := by
  unfold OnCurve neg at *
  linear_combination hp

/-- The cross product does not depend on the order of the points. -/
theorem cross_comm (p q : Point) : cross p q = cross q p := by
  unfold cross
  ring

/-- The cross product with the opposite point is the opposite one. -/
theorem cross_neg (p q : Point) : cross p q.neg = -cross p q := by
  unfold cross neg
  ring

/-- Two points may be added in either order. -/
theorem add_comm (p q : Point) : p.add q = q.add p := by
  ext : 1
  · rw [add_x, add_x, cross_comm]
    unfold numX
    ring
  · rw [add_y, add_y, cross_comm]
    unfold numY
    ring

/-! ## The denominators -/

/-- If the product of the denominators were zero, `d` would be a quotient of squares, unless the
divisor is zero. -/
theorem mul_self_eq_of_cross (hp : p.OnCurve) (hq : q.OnCurve) (h : cross p q * cross p q = 1) :
    (p.y + rootOfMinusOne * cross p q * p.x) * (p.y + rootOfMinusOne * cross p q * p.x) =
      d * (p.x * p.y * (rootOfMinusOne * q.x + q.y) *
        (p.x * p.y * (rootOfMinusOne * q.x + q.y))) := by
  have hroot := rootOfMinusOne_mul_self
  have hcross : cross p q = d * (p.x * q.x) * (p.y * q.y) := rfl
  unfold OnCurve at hp hq
  linear_combination hp - d * (p.x * p.y) ^ 2 * hq - (1 + p.x ^ 2) * h +
    (p.x ^ 2 * cross p q ^ 2 - d * (p.x * p.y) ^ 2 * q.x ^ 2) * hroot +
    (cross p q + d * (p.x * q.x) * (p.y * q.y) + 2 * rootOfMinusOne * p.x * p.y) * hcross

/-- The product of the denominators is not zero. -/
theorem cross_mul_self_ne_one (hp : p.OnCurve) (hq : q.OnCurve) :
    cross p q * cross p q ≠ 1 := by
  intro h
  -- the divisors for `q` and for its opposite are zero, and with their sum the cross product is
  have h₁ := eq_zero_of_mul_self_eq (mul_self_eq_of_cross hp hq h)
  have h₂ := eq_zero_of_mul_self_eq
    (mul_self_eq_of_cross hp (onCurve_neg hq) (by rw [cross_neg, neg_mul_neg, h]))
  have hcross : cross p q = d * (p.x * q.x) * (p.y * q.y) := rfl
  have htwo : (2 : Coordinate) = 0 := by
    unfold neg at h₂
    linear_combination -2 * h + cross p q * d * q.x * (h₁ + h₂) + 2 * cross p q * hcross
  exact absurd htwo (by decide)

/-- One denominator of a sum is not zero. -/
theorem one_add_cross_ne_zero (hp : p.OnCurve) (hq : q.OnCurve) : 1 + cross p q ≠ 0 := by
  intro h
  apply cross_mul_self_ne_one hp hq
  linear_combination (cross p q - 1) * h

/-- Nor is the other. -/
theorem one_sub_cross_ne_zero (hp : p.OnCurve) (hq : q.OnCurve) : 1 - cross p q ≠ 0 := by
  intro h
  apply cross_mul_self_ne_one hp hq
  linear_combination -(cross p q + 1) * h

/-! ## The sum of two points -/

/-- The sum of points on the curve is on the curve. -/
theorem onCurve_add (hp : p.OnCurve) (hq : q.OnCurve) : (p.add q).OnCurve := by
  have hU := one_add_cross_ne_zero hp hq
  have hV := one_sub_cross_ne_zero hp hq
  unfold OnCurve at *
  rw [add_x, add_y]
  generalize hk : cross p q = k at *
  field_simp
  rw [← hk]
  unfold cross numX numY
  linear_combination
    ((q.y ^ 2 - q.x ^ 2) * (1 + (d * (p.x * q.x) * (p.y * q.y)) ^ 2) -
        d * q.x ^ 2 * q.y ^ 2 * (p.y ^ 2 - p.x ^ 2 + 1 + d * p.x ^ 2 * p.y ^ 2)) * hp +
      ((1 + d * p.x ^ 2 * p.y ^ 2) * (1 + (d * (p.x * q.x) * (p.y * q.y)) ^ 2) -
        d * p.x ^ 2 * p.y ^ 2 * (q.y ^ 2 - q.x ^ 2 + 1 + d * q.x ^ 2 * q.y ^ 2)) * hq

/-- The neutral point changes nothing. -/
theorem zero_add (p : Point) : zero.add p = p := by
  have hcross : cross zero p = 0 := by
    unfold cross zero
    ring
  ext : 1
  · rw [add_x, hcross]
    unfold numX zero
    field_simp
    ring
  · rw [add_y, hcross]
    unfold numY zero
    field_simp
    ring

/-- A point and its opposite cancel. -/
theorem neg_add (hp : p.OnCurve) : p.neg.add p = zero := by
  have hV := one_sub_cross_ne_zero (onCurve_neg hp) hp
  ext : 1
  · rw [add_x]
    unfold numX neg zero
    ring
  · rw [add_y, mul_inv_eq_iff_eq_mul₀ hV]
    unfold numY cross neg zero
    unfold OnCurve at hp
    linear_combination hp

/-! ## The quarter turn

Adding the point `(i, 0)` with `i * i = -1` exchanges the coordinates, so that what is known of the
first coordinate of a sum is known of the second.
-/

/-- The sum with the point `(i, 0)`. -/
def turn (p : Point) : Point := ⟨rootOfMinusOne * p.y, rootOfMinusOne * p.x⟩

/-- A turned point is on the curve. -/
theorem onCurve_turn (hp : p.OnCurve) : p.turn.OnCurve := by
  have hroot := rootOfMinusOne_mul_self
  unfold OnCurve turn at *
  linear_combination hp +
    (p.x ^ 2 - p.y ^ 2 - d * p.x ^ 2 * p.y ^ 2 * (rootOfMinusOne ^ 2 - 1)) * hroot

/-- A turned sum is a sum with a turned point. -/
theorem turn_add (p q : Point) : p.turn.add q = (p.add q).turn := by
  have hcross : cross p.turn q = -cross p q := by
    unfold cross turn
    linear_combination d * p.x * p.y * q.x * q.y * rootOfMinusOne_mul_self
  ext : 1
  · calc
      (p.turn.add q).x = numX p.turn q * (1 + cross p.turn q)⁻¹ := rfl
      _ = rootOfMinusOne * (numY p q * (1 - cross p q)⁻¹) := by
        rw [hcross]
        unfold numX numY turn
        ring
  · calc
      (p.turn.add q).y = numY p.turn q * (1 - cross p.turn q)⁻¹ := rfl
      _ = rootOfMinusOne * (numX p q * (1 + cross p q)⁻¹) := by
        rw [hcross]
        unfold numX numY turn
        ring

/-! ## The sum of three points -/

/-- By how much the curve equation fails. -/
def defect (p : Point) : Coordinate :=
  -(p.x * p.x) + p.y * p.y - (1 + d * (p.x * p.x) * (p.y * p.y))

/-- On the curve the equation does not fail. -/
theorem defect_eq_zero (hp : p.OnCurve) : p.defect = 0 := sub_eq_zero.mpr hp

/-- The product of the denominators of a sum. -/
def den (p q : Point) : Coordinate := (1 + cross p q) * (1 - cross p q)

/-- The numerator of the first coordinate of a sum of three points, brought to the denominator
`den p q`. -/
def tripleNum (p q r : Point) : Coordinate :=
  numX p q * (1 - cross p q) * r.y + numY p q * (1 + cross p q) * r.x

/-- The denominator of that coordinate, brought to the same. -/
def tripleDen (p q r : Point) : Coordinate := den p q + d * (numX p q * numY p q) * (r.x * r.y)

/-- The factor of the curve equation of an outer point. -/
def outerFactor (p q r : Point) : Coordinate :=
  d * q.x * q.y *
    (numX q r * numY q r * (p.x * (q.x * r.x - q.y * r.y) + p.y * (q.y * r.x - q.x * r.y)) +
      q.x * q.y * tripleNum r q p)

/-- The factor of the curve equation of the inner point, from one side. -/
def innerFactor (p q r : Point) : Coordinate :=
  d * q.x * q.y * p.x * p.y *
    (p.x * (q.x * r.x * (r.x ^ 2 + 1) + q.y * r.y * (r.y ^ 2 - 1)) +
      p.y * (q.x * r.y * (r.y ^ 2 - 1) + q.y * r.x * (r.x ^ 2 + 1)))

/-- With cleared denominators the sums from both ends differ by multiples of the curve equations. -/
theorem tripleNum_mul_sub (p q r : Point) :
    tripleNum p q r * tripleDen r q p - tripleNum r q p * tripleDen p q r =
      outerFactor r q p * r.defect - outerFactor p q r * p.defect -
        (innerFactor p q r - innerFactor r q p) * q.defect := by
  unfold outerFactor innerFactor defect tripleNum tripleDen den numX numY cross
  ring

/-- The product of the denominators is not zero for points on the curve. -/
theorem den_ne_zero (hp : p.OnCurve) (hq : q.OnCurve) : den p q ≠ 0 :=
  mul_ne_zero (one_add_cross_ne_zero hp hq) (one_sub_cross_ne_zero hp hq)

/-- The numerator for three points is the one for the sum of two of them and the third, scaled by
`den p q`. -/
theorem tripleNum_eq (hp : p.OnCurve) (hq : q.OnCurve) (r : Point) :
    tripleNum p q r = den p q * numX (p.add q) r := by
  have hU := one_add_cross_ne_zero hp hq
  have hV := one_sub_cross_ne_zero hp hq
  rw [numX, add_x, add_y, tripleNum, den]
  field_simp

/-- The denominator for three points is scaled by the same. -/
theorem tripleDen_eq (hp : p.OnCurve) (hq : q.OnCurve) (r : Point) :
    tripleDen p q r = den p q * (1 + cross (p.add q) r) := by
  have hU := one_add_cross_ne_zero hp hq
  have hV := one_sub_cross_ne_zero hp hq
  rw [cross, add_x, add_y, tripleDen, den]
  field_simp

/-- The first coordinate of a sum of three points does not depend on the end it is taken from. -/
theorem add_add_x (hp : p.OnCurve) (hq : q.OnCurve) (hr : r.OnCurve) :
    ((p.add q).add r).x = ((r.add q).add p).x := by
  have hpq := one_add_cross_ne_zero (onCurve_add hp hq) hr
  have hrq := one_add_cross_ne_zero (onCurve_add hr hq) hp
  have hden := mul_ne_zero (den_ne_zero hp hq) (den_ne_zero hr hq)
  have hnum := tripleNum_mul_sub p q r
  rw [defect_eq_zero hp, defect_eq_zero hq, defect_eq_zero hr, tripleNum_eq hp hq,
    tripleNum_eq hr hq, tripleDen_eq hp hq, tripleDen_eq hr hq] at hnum
  have hmul : numX (p.add q) r * (1 + cross (r.add q) p) =
      numX (r.add q) p * (1 + cross (p.add q) r) := by
    apply mul_left_cancel₀ hden
    linear_combination hnum
  rw [add_x, add_x (r.add q)]
  field_simp
  linear_combination hmul

/-- Nor does the sum itself. -/
theorem add_add_comm (hp : p.OnCurve) (hq : q.OnCurve) (hr : r.OnCurve) :
    (p.add q).add r = (r.add q).add p := by
  have hroot : rootOfMinusOne ≠ 0 := by decide
  ext : 1
  · exact add_add_x hp hq hr
  · apply mul_left_cancel₀ hroot
    calc
      rootOfMinusOne * ((p.add q).add r).y = ((p.add q).add r).turn.x := rfl
      _ = ((p.turn.add q).add r).x := by rw [turn_add, turn_add]
      _ = ((r.add q).add p.turn).x := add_add_x (onCurve_turn hp) hq hr
      _ = ((r.add q).add p).turn.x := by rw [add_comm, turn_add, add_comm]
      _ = rootOfMinusOne * ((r.add q).add p).y := rfl

/-- Sums may be regrouped. -/
theorem add_assoc (hp : p.OnCurve) (hq : q.OnCurve) (hr : r.OnCurve) :
    (p.add q).add r = p.add (q.add r) := by
  rw [add_add_comm hp hq hr, add_comm r q, add_comm]

end Point

end Edwards25519

end FirmwareSeal
