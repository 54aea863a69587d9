import FirmwareSeal.Signature.Group

/-!
# Groups that signatures can rely on

`SigningGroup` has operations and no laws. `SigningGroup.Laws` states what the signature scheme
relies on: the multiples of the base point form a commutative group under addition, a multiple is an
iterated sum, the order takes the base point to the neutral point, and a multiple is decoded from
its encoding. From that, numbers that multiply the base point may be reduced modulo the order.
-/

namespace FirmwareSeal

namespace SigningGroup

/-- Whether a point is a multiple of the base point. -/
def IsMultiple (G : SigningGroup) (P : G.Point) : Prop := ∃ n, G.multiple n G.base = P

/-- The multiple by zero. -/
def neutral (G : SigningGroup) : G.Point := G.multiple 0 G.base

/-- The laws of a group of points with a base point and an encoding. -/
structure Laws (G : SigningGroup) : Prop where
  order_pos : 0 < G.order
  /-- A number below the order fits 32 bytes. -/
  order_le : G.order ≤ Nat.pow 256 32
  isMultiple_base : G.IsMultiple G.base
  isMultiple_add {P Q : G.Point} :
    G.IsMultiple P → G.IsMultiple Q → G.IsMultiple (G.add P Q)
  isMultiple_neg {P : G.Point} : G.IsMultiple P → G.IsMultiple (G.neg P)
  add_assoc {P Q R : G.Point} : G.IsMultiple P → G.IsMultiple Q → G.IsMultiple R →
    G.add (G.add P Q) R = G.add P (G.add Q R)
  add_comm {P Q : G.Point} : G.IsMultiple P → G.IsMultiple Q → G.add P Q = G.add Q P
  neutral_add {P : G.Point} : G.IsMultiple P → G.add G.neutral P = P
  neg_add {P : G.Point} : G.IsMultiple P → G.add (G.neg P) P = G.neutral
  multiple_zero {P : G.Point} : G.IsMultiple P → G.multiple 0 P = G.neutral
  multiple_succ {P : G.Point} (n : Nat) : G.IsMultiple P →
    G.multiple (n + 1) P = G.add (G.multiple n P) P
  multiple_order : G.multiple G.order G.base = G.neutral
  decode?_encode {P : G.Point} : G.IsMultiple P → G.decode? (G.encode P) = some P

/-- The multiples of the base point are its multiples. -/
theorem isMultiple_multiple (G : SigningGroup) (n : Nat) : G.IsMultiple (G.multiple n G.base) :=
  ⟨n, rfl⟩

/-- The neutral point is one of them. -/
theorem isMultiple_neutral (G : SigningGroup) : G.IsMultiple G.neutral := G.isMultiple_multiple 0

namespace Laws

variable {G : SigningGroup} (laws : G.Laws)
include laws

/-- The neutral point may stand behind, too. -/
theorem add_neutral {P : G.Point} (h : G.IsMultiple P) : G.add P G.neutral = P := by
  rw [laws.add_comm h G.isMultiple_neutral, laws.neutral_add h]

/-- A point that was added is cancelled. -/
theorem add_add_neg {P Q : G.Point} (hP : G.IsMultiple P) (hQ : G.IsMultiple Q) :
    G.add (G.add P Q) (G.neg Q) = P := by
  have hnegQ := laws.isMultiple_neg hQ
  rw [laws.add_assoc hP hQ hnegQ, laws.add_comm hQ hnegQ, laws.neg_add hQ, laws.add_neutral hP]

/-- A point that is taken away may be added on the other side. -/
theorem add_neg_eq_iff {P Q R : G.Point} (hP : G.IsMultiple P) (hQ : G.IsMultiple Q)
    (hR : G.IsMultiple R) : G.add P (G.neg Q) = R ↔ P = G.add R Q := by
  constructor
  · rintro rfl
    rw [laws.add_assoc hP (laws.isMultiple_neg hQ) hQ, laws.neg_add hQ, laws.add_neutral hP]
  · rintro rfl
    exact laws.add_add_neg hR hQ

/-- Different points have different encodings. -/
theorem encode_inj {P Q : G.Point} (hP : G.IsMultiple P) (hQ : G.IsMultiple Q) :
    G.encode P = G.encode Q ↔ P = Q := by
  constructor
  · intro h
    have hdecode := congrArg G.decode? h
    rw [laws.decode?_encode hP, laws.decode?_encode hQ] at hdecode
    exact Option.some.inj hdecode
  · rintro rfl
    rfl

/-- The multiple by a sum is the sum of the multiples. -/
theorem multiple_add (m n : Nat) :
    G.multiple (m + n) G.base = G.add (G.multiple m G.base) (G.multiple n G.base) := by
  have hm := G.isMultiple_multiple m
  induction n with
  | zero => exact (laws.add_neutral hm).symm
  | succ n ih =>
    have hn := G.isMultiple_multiple n
    rw [← Nat.add_assoc, laws.multiple_succ (m + n) laws.isMultiple_base, ih,
      laws.add_assoc hm hn laws.isMultiple_base, ← laws.multiple_succ n laws.isMultiple_base]

/-- A multiple of a multiple is the multiple by the product. -/
theorem multiple_multiple (m n : Nat) :
    G.multiple m (G.multiple n G.base) = G.multiple (m * n) G.base := by
  have hn := G.isMultiple_multiple n
  induction m with
  | zero =>
    rw [laws.multiple_zero hn, Nat.zero_mul]
    rfl
  | succ m ih => rw [laws.multiple_succ m hn, ih, ← laws.multiple_add, Nat.succ_mul]

/-- Multiples by the order and its multiples are neutral. -/
theorem multiple_mul_order (n : Nat) : G.multiple (n * G.order) G.base = G.neutral := by
  rw [← laws.multiple_multiple, laws.multiple_order]
  change G.multiple n (G.multiple 0 G.base) = G.neutral
  rw [laws.multiple_multiple, Nat.mul_zero]
  rfl

/-- A number that multiplies the base point may be reduced modulo the order. -/
theorem multiple_mod_order (n : Nat) : G.multiple (n % G.order) G.base = G.multiple n G.base := by
  calc
    G.multiple (n % G.order) G.base
      = G.add G.neutral (G.multiple (n % G.order) G.base) :=
        (laws.neutral_add (G.isMultiple_multiple _)).symm
    _ = G.add (G.multiple (n / G.order * G.order) G.base) (G.multiple (n % G.order) G.base) := by
        rw [laws.multiple_mul_order]
    _ = G.multiple (n / G.order * G.order + n % G.order) G.base := (laws.multiple_add _ _).symm
    _ = G.multiple n G.base := by rw [Nat.div_add_mod']

end Laws

end SigningGroup

end FirmwareSeal
