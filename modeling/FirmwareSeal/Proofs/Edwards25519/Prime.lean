import FirmwareSeal.Signature.Edwards25519
import Mathlib.Data.List.Prime
import Mathlib.NumberTheory.LucasPrimality
import Mathlib.Tactic.NormNum.Prime

/-!
# The field size is a prime

`repeated` takes one step for each binary digit, so it raises numbers of the size of the field to
powers of that size quickly enough for the kernel. Lucas's test needs only such powers: `n` is a
prime if some number has the order `n - 1` modulo `n`, which is tested at the prime factors of
`n - 1`. Those factors are proved prime in the same way, down to small ones.
-/

namespace FirmwareSeal

/-! ## Repetition by binary digits -/

section

variable {α : Type} {R : α → Nat → Prop} {op : α → α → α} {unit x : α}
  (hop : ∀ {a b : α} {m n : Nat}, R a m → R b n → R (op a b) (m + n))
include hop

/-- The lowest `k` digits complete the number of the digits above them. -/
theorem foldl_digits_rel (hx : R x 1) (n k : Nat) {r : α} (hr : R r (n >>> k)) :
    R (((List.range k).reverse.map n.testBit).foldl
        (fun r digit ↦ if digit then op (op r r) x else op r r) r) n := by
  induction k generalizing r with
  | zero => exact hr
  | succ k ih =>
    rw [List.range_succ, List.reverse_append, List.map_append, List.foldl_append]
    apply ih
    -- the number above digit `k` is doubled, and the digit adds one
    have hdigit := Nat.bit_testBit_zero_shiftRight_one (n >>> k)
    rw [Nat.testBit_shiftRight, Nat.add_zero, ← Nat.shiftRight_add, Nat.bit_val, Nat.two_mul]
      at hdigit
    rw [← hdigit]
    cases hk : n.testBit k with
    | false => simpa [hk] using hop hr hr
    | true => simpa [hk] using hop (hop hr hr) hx

/-- What is true of nothing and of one copy, and adds up when two counts of copies are combined,
is true of `n` copies. -/
theorem repeated_rel (hunit : R unit 0) (hx : R x 1) (n : Nat) : R (repeated op unit x n) n := by
  refine foldl_digits_rel hop hx n (n.log2 + 1) ?_
  rwa [Nat.shiftRight_eq_div_pow, Nat.div_eq_of_lt Nat.lt_log2_self]

end

/-! ## Lucas's test -/

/-- A power of `a` modulo `n`. -/
def powMod (n a k : Nat) : Nat := repeated (fun u v ↦ u * v % n) 1 a k

/-- It is the power in the ring of integers modulo `n`. -/
theorem cast_powMod (n a k : Nat) : (powMod n a k : ZMod n) = (a : ZMod n) ^ k := by
  refine repeated_rel (R := fun (u m : Nat) ↦ (u : ZMod n) = (a : ZMod n) ^ m) ?_ ?_ ?_ k
  · intro u v l m hu hv
    rw [ZMod.natCast_mod, Nat.cast_mul, hu, hv, pow_add]
  · rw [Nat.cast_one, pow_zero]
  · rw [pow_one]

/-- That `a` has the order `n - 1` modulo `n`, where the factors multiply to `n - 1`. -/
def HasFullOrder (n a : Nat) (factors : List Nat) : Prop :=
  factors.prod + 1 = n ∧ powMod n a (n - 1) % n = 1 ∧
    ∀ q ∈ factors, powMod n a ((n - 1) / q) % n ≠ 1

instance (n a : Nat) (factors : List Nat) : Decidable (HasFullOrder n a factors) :=
  inferInstanceAs (Decidable (_ ∧ _ ∧ _))

/-- With prime factors such a number is a prime. -/
theorem prime_of_hasFullOrder {n : Nat} (a : Nat) (factors : List Nat)
    (h : HasFullOrder n a factors) (hprime : ∀ q ∈ factors, q.Prime) : n.Prime := by
  obtain ⟨hprod, hfull, hpart⟩ := h
  have hn : 1 < n := by
    have hpos : 0 < factors.prod := List.prod_pos fun q hq ↦ (hprime q hq).pos
    omega
  -- powers are one in the ring exactly if their residues are one
  have hone (k : Nat) : (a : ZMod n) ^ k = 1 ↔ powMod n a k % n = 1 := by
    rw [← cast_powMod, ← Nat.cast_one, ZMod.natCast_eq_natCast_iff', Nat.mod_eq_of_lt hn]
  refine lucas_primality n (a : ZMod n) ((hone _).mpr hfull) ?_
  intro q hq hdvd
  rw [← hprod, Nat.add_sub_cancel] at hdvd
  obtain ⟨r, hr, hqr⟩ := (Prime.dvd_prod_iff hq.prime).mp hdvd
  obtain rfl := (Nat.prime_dvd_prime_iff_eq hq (hprime r hr)).mp hqr
  rw [Ne, hone]
  exact hpart q hr

/-! ## The field size -/

namespace Edwards25519

/-- The field size is a prime. -/
theorem prime_fieldSize : fieldSize.Prime := by
  have h₁ : Nat.Prime 2773320623 :=
    prime_of_hasFullOrder 5 [2, 2437, 569003] (by decide +kernel) (by norm_num)
  have h₂ : Nat.Prime 72106336199 :=
    prime_of_hasFullOrder 7 [2, 13, 2773320623] (by decide +kernel)
      (by simp only [List.forall_mem_cons, h₁]; norm_num)
  have h₃ : Nat.Prime 1919519569386763 :=
    prime_of_hasFullOrder 2 [2, 3, 7, 19, 47, 47, 127, 8574133] (by decide +kernel) (by norm_num)
  have h₄ : Nat.Prime 31757755568855353 :=
    prime_of_hasFullOrder 10 [2, 2, 2, 3, 31, 107, 223, 4153, 430751] (by decide +kernel)
      (by norm_num)
  have h₅ : Nat.Prime 75445702479781427272750846543864801 :=
    prime_of_hasFullOrder 7
      [2, 2, 2, 2, 2, 3, 3, 5, 5, 75707, 72106336199, 1919519569386763]
      (by decide +kernel) (by simp only [List.forall_mem_cons, h₂, h₃]; norm_num)
  have h₆ : Nat.Prime 74058212732561358302231226437062788676166966415465897661863160754340907 :=
    prime_of_hasFullOrder 2
      [2, 3, 353, 57467, 132049, 1923133, 31757755568855353, 75445702479781427272750846543864801]
      (by decide +kernel) (by simp only [List.forall_mem_cons, h₄, h₅]; norm_num)
  exact prime_of_hasFullOrder 2
    [2, 2, 3, 65147, 74058212732561358302231226437062788676166966415465897661863160754340907]
    (by decide +kernel) (by simp only [List.forall_mem_cons, h₆]; norm_num)

end Edwards25519

end FirmwareSeal
