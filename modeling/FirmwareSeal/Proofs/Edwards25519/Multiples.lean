import FirmwareSeal.Proofs.Edwards25519.Addition
import Mathlib.Algebra.Group.MinimalAxioms

/-!
# The group of the curve and its multiples

The points on the curve are a commutative group. Extended coordinates stand for a point if they are
its coordinates and their product, scaled by the same factor; the addition law without division
keeps this, and so does the whole computation of a multiple. Turned back into a pair, the result is
the multiple in the group.
-/

namespace FirmwareSeal

namespace Edwards25519

open Fin.CommRing

/-! ## The group -/

/-- The points on the curve. -/
abbrev CurvePoint := {p : Point // p.OnCurve}

namespace CurvePoint

instance : Add CurvePoint := ⟨fun p q ↦ ⟨p.1.add q.1, Point.onCurve_add p.2 q.2⟩⟩

instance : Zero CurvePoint := ⟨⟨.zero, Point.onCurve_zero⟩⟩

instance : Neg CurvePoint := ⟨fun p ↦ ⟨p.1.neg, Point.onCurve_neg p.2⟩⟩

/-- Points are added in the group by the addition law. -/
theorem coe_add (p q : CurvePoint) : (p + q).1 = p.1.add q.1 := rfl

/-- Sums in the group may be regrouped. -/
theorem add_assoc (p q r : CurvePoint) : p + q + r = p + (q + r) :=
  Subtype.ext (Point.add_assoc p.2 q.2 r.2)

/-- The neutral point changes nothing in the group. -/
theorem zero_add (p : CurvePoint) : 0 + p = p := Subtype.ext (Point.zero_add p.1)

/-- A point and its opposite cancel in the group. -/
theorem neg_add (p : CurvePoint) : -p + p = 0 := Subtype.ext (Point.neg_add p.2)

/-- Points of the group may be added in either order. -/
theorem add_comm (p q : CurvePoint) : p + q = q + p := Subtype.ext (Point.add_comm p.1 q.1)

instance : AddCommGroup CurvePoint where
  __ := AddGroup.ofLeftAxioms add_assoc zero_add neg_add
  add_comm := add_comm

/-- The base point, as a point on the curve. -/
def base : CurvePoint := ⟨.base, Point.onCurve_base⟩

end CurvePoint

/-! ## Extended coordinates -/

namespace Extended

/-- That extended coordinates stand for a point. -/
structure Represents (e : Extended) (p : Point) : Prop where
  Z_ne_zero : e.Z ≠ 0
  X_eq : e.X = p.x * e.Z
  Y_eq : e.Y = p.y * e.Z
  T_eq : e.T = p.x * p.y * e.Z

/-- The extended coordinates of the neutral point stand for it. -/
theorem represents_zero : zero.Represents .zero := ⟨by decide, by decide, by decide, by decide⟩

/-- The coordinates of a point, extended by one and their product, stand for it. -/
theorem represents_ofPoint (p : Point) : (ofPoint p).Represents p where
  Z_ne_zero := one_ne_zero
  X_eq := (mul_one _).symm
  Y_eq := (mul_one _).symm
  T_eq := (mul_one _).symm

/-- Extended coordinates are turned back into the point that they stand for. -/
theorem Represents.toPoint_eq {e : Extended} {p : Point} (h : e.Represents p) : e.toPoint = p := by
  have hZ := h.Z_ne_zero
  ext : 1
  · calc
      e.toPoint.x = e.X * e.Z⁻¹ := rfl
      _ = p.x := by rw [h.X_eq, mul_inv_cancel_right₀ hZ]
  · calc
      e.toPoint.y = e.Y * e.Z⁻¹ := rfl
      _ = p.y := by rw [h.Y_eq, mul_inv_cancel_right₀ hZ]

/-- The addition law without division is the addition law. -/
theorem Represents.add {e f : Extended} {p q : Point} (he : e.Represents p) (hf : f.Represents q)
    (hp : p.OnCurve) (hq : q.OnCurve) : (e.add f).Represents (p.add q) := by
  have hU := Point.one_add_cross_ne_zero hp hq
  have hV := Point.one_sub_cross_ne_zero hp hq
  -- the four factors have the numerators and denominators of the sum, scaled by `z`
  obtain ⟨z, hz⟩ : ∃ z, z = 2 * e.Z * f.Z := ⟨_, rfl⟩
  have hz₀ : z ≠ 0 := by
    rw [hz]
    exact mul_ne_zero (mul_ne_zero (by decide) he.Z_ne_zero) hf.Z_ne_zero
  have hc : 2 * d * e.T * f.T = z * p.cross q := by
    rw [he.T_eq, hf.T_eq, hz, Point.cross]
    ring
  have hdiff : (e.Y + e.X) * (f.Y + f.X) - (e.Y - e.X) * (f.Y - f.X) = z * p.numX q := by
    rw [he.X_eq, he.Y_eq, hf.X_eq, hf.Y_eq, hz, Point.numX]
    ring
  have hsum : (e.Y + e.X) * (f.Y + f.X) + (e.Y - e.X) * (f.Y - f.X) = z * p.numY q := by
    rw [he.X_eq, he.Y_eq, hf.X_eq, hf.Y_eq, hz, Point.numY]
    ring
  have hadd : e.add f = ⟨z * p.numX q * (z - z * p.cross q), (z + z * p.cross q) * (z * p.numY q),
      (z - z * p.cross q) * (z + z * p.cross q), z * p.numX q * (z * p.numY q)⟩ := by
    unfold Extended.add
    simp only [hc, hdiff, hsum, ← hz]
  rw [hadd]
  refine ⟨?_, ?_, ?_, ?_⟩
  · have hsplit : (z - z * p.cross q) * (z + z * p.cross q) =
        z * (1 - p.cross q) * (z * (1 + p.cross q)) := by ring
    rw [hsplit]
    exact mul_ne_zero (mul_ne_zero hz₀ hV) (mul_ne_zero hz₀ hU)
  · rw [Point.add_x]
    field_simp
  · rw [Point.add_y]
    field_simp
  · rw [Point.add_x, Point.add_y]
    field_simp

end Extended

/-! ## Multiples -/

/-- The computed multiple is the one in the group. -/
theorem multiple_eq_nsmul (n : Nat) (p : CurvePoint) : multiple n p.1 = (n • p).1 := by
  apply Extended.Represents.toPoint_eq
  refine repeated_rel (R := fun (e : Extended) (m : Nat) ↦ e.Represents (m • p).1) ?_ ?_ ?_ n
  · intro e f l m he hf
    rw [add_nsmul]
    exact he.add hf (l • p).2 (m • p).2
  · rw [zero_nsmul]
    exact Extended.represents_zero
  · rw [one_nsmul]
    exact Extended.represents_ofPoint p.1

/-- The multiple by zero is neutral. -/
theorem multiple_zero {p : Point} (hp : p.OnCurve) : multiple 0 p = .zero := by
  have h := multiple_eq_nsmul 0 ⟨p, hp⟩
  rw [zero_nsmul] at h
  exact h

/-- The next multiple is one copy more. -/
theorem multiple_succ {p : Point} (hp : p.OnCurve) (n : Nat) :
    multiple (n + 1) p = (multiple n p).add p := by
  have h := multiple_eq_nsmul (n + 1) ⟨p, hp⟩
  rw [succ_nsmul, CurvePoint.coe_add, ← multiple_eq_nsmul] at h
  exact h

end Edwards25519

end FirmwareSeal
