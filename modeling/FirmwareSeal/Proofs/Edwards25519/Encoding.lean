import FirmwareSeal.Proofs.Edwards25519.Addition

/-!
# Decoding an encoded point

The curve equation gives the square of `x` as a quotient of functions of `y`. The field size leaves
five modulo eight, so one power of the quotient is a root of it or of its opposite, and in the
second case a root of minus one repairs it. Of the two roots exactly one is even unless both are
zero, so that the parity in the encoding picks the one that was encoded.
-/

namespace FirmwareSeal

namespace Edwards25519

open Fin.CommRing

/-! ## Parity -/

/-- The opposite of a coordinate other than zero. -/
theorem val_neg_of_ne_zero {x : Coordinate} (h : x ≠ 0) : (-x).val = fieldSize - x.val := by
  have hx : x.val ≠ 0 := fun h₀ ↦ h (Fin.ext h₀)
  rw [Fin.val_neg', Nat.mod_eq_of_lt (by have := x.isLt; omega)]

/-- It has the other parity. -/
theorem neg_parity {x : Coordinate} (h : x ≠ 0) : (-x).val % 2 = 1 - x.val % 2 := by
  have hodd : fieldSize % 2 = 1 := by decide
  have hlt := x.isLt
  rw [val_neg_of_ne_zero h]
  omega

/-! ## Roots -/

/-- A root of `u / v` or of its opposite, for `v` not zero, if there is one. -/
def rootCandidate (u v : Coordinate) : Coordinate :=
  u * power v 3 * power (u * power v 7) ((fieldSize - 5) / 8)

/-- For a square the candidate is a power of its root. -/
theorem rootCandidate_eq_pow {v : Coordinate} (hv : v ≠ 0) (x : Coordinate) :
    rootCandidate (v * (x * x)) v = x ^ ((fieldSize + 3) / 4) := by
  have hexp : (fieldSize + 3) / 4 = 2 + 2 * ((fieldSize - 5) / 8) := by decide
  have hexp' : 4 + 8 * ((fieldSize - 5) / 8) = fieldSize - 1 := by decide
  rw [hexp, rootCandidate, power_eq_pow, power_eq_pow, power_eq_pow]
  generalize (fieldSize - 5) / 8 = e at *
  calc
    v * (x * x) * v ^ 3 * (v * (x * x) * v ^ 7) ^ e = x ^ (2 + 2 * e) * v ^ (4 + 8 * e) := by ring
    _ = x ^ (2 + 2 * e) := by rw [hexp', pow_fieldSize_sub_one hv, mul_one]

/-- Its square is the square or the opposite. -/
theorem rootCandidate_mul_self {v : Coordinate} (hv : v ≠ 0) (x : Coordinate) :
    rootCandidate (v * (x * x)) v * rootCandidate (v * (x * x)) v = x * x ∨
      rootCandidate (v * (x * x)) v * rootCandidate (v * (x * x)) v = -(x * x) := by
  have hexp : (fieldSize + 3) / 4 + (fieldSize + 3) / 4 = (fieldSize - 1) / 2 + 2 := by decide
  rw [rootCandidate_eq_pow hv, ← pow_add, hexp, pow_add, pow_two]
  by_cases hx : x = 0
  · left
    rw [hx, mul_zero, mul_zero]
  · obtain h | h := pow_half_eq_or hx
    · left
      rw [h, one_mul]
    · right
      rw [h, neg_one_mul]

/-- The even one of a coordinate and its opposite. -/
def evenOf (root : Coordinate) : Coordinate := if root.val % 2 = 0 then root else -root

/-- It is even. -/
theorem evenOf_even (root : Coordinate) : (evenOf root).val % 2 = 0 := by
  unfold evenOf
  split
  · next h => exact h
  · next h =>
    have hroot : root ≠ 0 := by
      rintro rfl
      exact h rfl
    rw [neg_parity hroot]
    omega

/-- It has the same square. -/
theorem evenOf_mul_self (root : Coordinate) : evenOf root * evenOf root = root * root := by
  unfold evenOf
  split
  · rfl
  · exact neg_mul_neg root root

/-- The candidate, or its product with the root of minus one, makes the even root. -/
theorem evenRoot?_eq (u v : Coordinate) :
    evenRoot? u v =
      if v * rootCandidate u v * rootCandidate u v = u then some (evenOf (rootCandidate u v))
      else if v * rootCandidate u v * rootCandidate u v = -u then
        some (evenOf (rootCandidate u v * rootOfMinusOne))
      else none := by
  have heq : evenRoot? u v =
      (if v * rootCandidate u v * rootCandidate u v = u then some (rootCandidate u v)
      else if v * rootCandidate u v * rootCandidate u v = -u then
        some (rootCandidate u v * rootOfMinusOne)
      else none).map evenOf := rfl
  rw [heq, apply_ite (Option.map evenOf), apply_ite (Option.map evenOf)]
  rfl

/-- A square has an even root. -/
theorem exists_evenRoot?_eq {v : Coordinate} (hv : v ≠ 0) (x : Coordinate) :
    ∃ r, evenRoot? (v * (x * x)) v = some r ∧ r.val % 2 = 0 ∧ r * r = x * x := by
  have hcandidate := rootCandidate_mul_self hv x
  rw [evenRoot?_eq]
  generalize rootCandidate (v * (x * x)) v = c at *
  split
  · next h =>
    refine ⟨_, rfl, evenOf_even c, ?_⟩
    rw [evenOf_mul_self]
    apply mul_left_cancel₀ hv
    rw [← mul_assoc, h]
  · next h =>
    have hc : c * c = -(x * x) := by
      refine hcandidate.resolve_left fun hc ↦ h ?_
      rw [mul_assoc, hc]
    rw [if_pos (by rw [mul_assoc, hc, mul_neg])]
    refine ⟨_, rfl, evenOf_even _, ?_⟩
    rw [evenOf_mul_self]
    linear_combination rootOfMinusOne ^ 2 * hc - x * x * rootOfMinusOne_mul_self

/-- An even root of a square, or its opposite, is told by the parity of the root. -/
theorem root_eq_of_parity {r x : Coordinate} (heven : r.val % 2 = 0) (h : r * r = x * x) :
    (if x.val % 2 = 1 then -r else r) = x := by
  obtain rfl | rfl := mul_self_eq_mul_self_iff.mp h
  · rw [if_neg (by omega)]
  · by_cases hx : x = 0
    · simp [hx]
    · rw [neg_parity hx] at heven
      rw [if_pos (by omega), neg_neg]

/-! ## Points -/

/-- The factor of the square of `x` in the curve equation is not zero. -/
theorem d_mul_add_one_ne_zero (y : Coordinate) : d * y * y + 1 ≠ 0 := by
  intro h
  have hy : y = 0 := by
    apply eq_zero_of_mul_self_eq (r := rootOfMinusOne)
    linear_combination rootOfMinusOne_mul_self - h
  rw [hy, mul_zero] at h
  exact absurd h (by decide)

/-- The curve equation, solved for the square of `x`. -/
theorem Point.OnCurve.eq_mul {p : Point} (h : p.OnCurve) :
    p.y * p.y - 1 = (d * p.y * p.y + 1) * (p.x * p.x) := by
  unfold Point.OnCurve at h
  linear_combination h

/-- A coordinate is below the place of the sign bit. -/
theorem val_lt_signBit (y : Coordinate) : y.val < Nat.pow 2 255 :=
  Nat.lt_of_lt_of_le y.isLt (Nat.sub_le _ _)

/-- An encoding is the number of `y` with the parity of `x` above it. -/
theorem ofLittle_encode (p : Point) :
    ofLittle (encode p).toList = p.y.val + Nat.pow 2 255 * (p.x.val % 2) := by
  have hy := val_lt_signBit p.y
  have hsize : Nat.pow 256 32 = Nat.pow 2 255 + Nat.pow 2 255 := by decide
  apply ofLittle_toLittle_of_lt
  rw [hsize]
  generalize Nat.pow 2 255 = signBit at *
  obtain hx | hx := Nat.mod_two_eq_zero_or_one p.x.val
  · rw [hx]
    omega
  · rw [hx]
    omega

/-- A point on the curve is decoded from its encoding. -/
theorem decode?_encode {p : Point} (h : p.OnCurve) : decode? (encode p) = some p := by
  have hlt := val_lt_signBit p.y
  have hy : ofLittle (encode p).toList % Nat.pow 2 255 = p.y.val := by
    rw [ofLittle_encode, Nat.add_mul_mod_self_left, Nat.mod_eq_of_lt hlt]
  have hx : ofLittle (encode p).toList / Nat.pow 2 255 = p.x.val % 2 := by
    rw [ofLittle_encode, Nat.add_mul_div_left _ _ (Nat.zero_lt_of_lt hlt), Nat.div_eq_of_lt hlt,
      Nat.zero_add]
  have hcoordinate : Fin.ofNat fieldSize p.y.val = p.y := Fin.ext (Nat.mod_eq_of_lt p.y.isLt)
  obtain ⟨r, hroot, heven, hsquare⟩ := exists_evenRoot?_eq (d_mul_add_one_ne_zero p.y) p.x
  rw [← h.eq_mul] at hroot
  unfold decode?
  simp only [hy, hx, hcoordinate, hroot, Option.map_some, root_eq_of_parity heven hsquare]

end Edwards25519

end FirmwareSeal
