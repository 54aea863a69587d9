/-!
# Sets of characters

A set is a list of ranges of character numbers, both ends included; ranges may overlap. Taking a
set away cuts its ranges out of the others one by one, and everything else is said through that.
A set is also brought into a canonical form, which no longer shows how it was put together. The
laws state membership: `contains_union`, `contains_diff`, `any_inter`, `contains_complement` and
`contains_canonical`.
-/

namespace FirmwareSeal

/-- A set of characters, by the numbers in its ranges. -/
structure CharSet where
  ranges : List (Nat × Nat)
  deriving DecidableEq

namespace CharSet

/-- The greatest number of a character. -/
def lastNumber : Nat := 0x10ffff

/-- Whether a number is in a range. -/
def inRange (n : Nat) (r : Nat × Nat) : Bool := r.1 ≤ n && n ≤ r.2

/-- Whether a set has a character. -/
def contains (s : CharSet) (c : Char) : Bool := s.ranges.any (inRange c.toNat)

/-- The set without characters. -/
def empty : CharSet := ⟨[]⟩

/-- The set of all characters. -/
def all : CharSet := ⟨[(0, lastNumber)]⟩

/-- The set of one character. -/
def single (c : Char) : CharSet := ⟨[(c.toNat, c.toNat)]⟩

/-- The characters from one to another. -/
def range (first last : Char) : CharSet := ⟨[(first.toNat, last.toNat)]⟩

/-- The characters of either set. -/
def union (s t : CharSet) : CharSet := ⟨s.ranges ++ t.ranges⟩

/-- What a cut leaves of a range. -/
def cutRange (cut r : Nat × Nat) : List (Nat × Nat) :=
  (if r.1 < cut.1 then [(r.1, min r.2 (cut.1 - 1))] else []) ++
    (if cut.2 < r.2 then [(max r.1 (cut.2 + 1), r.2)] else [])

/-- The characters of one set that another does not have. -/
def diff (s t : CharSet) : CharSet :=
  ⟨t.ranges.foldl (fun left cut ↦ left.flatMap (cutRange cut)) s.ranges⟩

/-- The characters of both sets. -/
def inter (s t : CharSet) : CharSet := s.diff (s.diff t)

/-- The characters of one set alone. -/
def symmDiff (s t : CharSet) : CharSet := (s.diff t).union (t.diff s)

/-- The characters that a set does not have. -/
def complement (s : CharSet) : CharSet := all.diff s

/-- Whether a set has no character. -/
def isEmpty (s : CharSet) : Bool := s.ranges.isEmpty

/-- Whether a set has only characters with numbers below 128. -/
def isAscii (s : CharSet) : Bool := s.ranges.all fun r ↦ r.2 < 0x80

/-- The characters of a set with numbers in a range, moved to where another range begins. -/
def moved (s : CharSet) (first last start : Nat) : List (Nat × Nat) :=
  (s.inter ⟨[(first, last)]⟩).ranges.map fun r ↦ (r.1 - first + start, r.2 - first + start)

/-- A set with the other case of each of its letters from `a` to `z`. -/
def withBothCases (s : CharSet) : CharSet :=
  ⟨s.ranges ++ s.moved 0x41 0x5a 0x61 ++ s.moved 0x61 0x7a 0x41⟩

/-! ## The canonical form -/

/-- A range without the surrogates at its ends, which are numbers of no character. -/
def trimmed (r : Nat × Nat) : Option (Nat × Nat) :=
  let first := if 0xd800 ≤ r.1 ∧ r.1 ≤ 0xdfff then 0xe000 else r.1
  let last := if 0xd800 ≤ r.2 ∧ r.2 ≤ 0xdfff then 0xd7ff else r.2
  if first ≤ last then some (first, last) else none

/-- Adds a range to others that begin no later, listed from the last one on. It grows the last one
if there is no number between them. -/
def joinRange (ranges : List (Nat × Nat)) (r : Nat × Nat) : List (Nat × Nat) :=
  match ranges with
  | [] => [r]
  | last :: before =>
    if last.1 ≤ r.1 ∧ r.1 ≤ last.2 + 1 then (last.1, max last.2 r.2) :: before
    else r :: last :: before

/-- A set in canonical form: its ranges are in order, and some number is between any two. -/
def canonical (s : CharSet) : CharSet :=
  ⟨(((s.ranges.filterMap trimmed).mergeSort fun a b ↦ a.1 ≤ b.1).foldl joinRange []).reverse⟩

/-! ## Membership -/

/-- Being in a union is being in one of the sets. -/
theorem contains_union (s t : CharSet) (c : Char) :
    (s.union t).contains c = (s.contains c || t.contains c) := by
  simp only [contains, union, List.any_append]

/-- A cut leaves of a range the numbers that are not in the cut. -/
theorem any_cutRange (n : Nat) (cut r : Nat × Nat) :
    (cutRange cut r).any (inRange n) = (inRange n r && !inRange n cut) := by
  rw [Bool.eq_iff_iff]
  unfold cutRange inRange
  split <;> split <;>
    simp only [List.any_append, List.any_cons, List.any_nil, Bool.or_false, Bool.false_or,
      Bool.or_eq_true, Bool.and_eq_true, decide_eq_true_eq, Bool.not_eq_true',
      Bool.and_eq_false_iff, decide_eq_false_iff_not, Bool.false_eq_true, Nat.le_min,
      Nat.max_le, false_iff, not_and, not_or] <;>
    omega

/-- Cuts leave the numbers that are in none of them. -/
theorem any_foldl_cutRange (n : Nat) (cuts left : List (Nat × Nat)) :
    (cuts.foldl (fun left cut ↦ left.flatMap (cutRange cut)) left).any (inRange n) =
      (left.any (inRange n) && !cuts.any (inRange n)) := by
  induction cuts generalizing left with
  | nil => simp
  | cons cut rest ih =>
    have hflat : (left.flatMap (cutRange cut)).any (inRange n) =
        (left.any (inRange n) && !inRange n cut) := by
      induction left with
      | nil => rfl
      | cons r left ihl =>
        simp only [List.flatMap_cons, List.any_append, List.any_cons, any_cutRange, ihl]
        cases inRange n r <;> cases inRange n cut <;> simp
    simp only [List.foldl_cons, ih, hflat, List.any_cons, Bool.not_or, Bool.and_assoc]

/-- Being in a difference is being in the first set and not in the second. -/
theorem contains_diff (s t : CharSet) (c : Char) :
    (s.diff t).contains c = (s.contains c && !t.contains c) :=
  any_foldl_cutRange c.toNat t.ranges s.ranges

/-- The numbers of an intersection are those of both sets. -/
theorem any_inter (n : Nat) (s t : CharSet) :
    (s.inter t).ranges.any (inRange n) =
      (s.ranges.any (inRange n) && t.ranges.any (inRange n)) := by
  simp only [inter, diff, any_foldl_cutRange]
  cases s.ranges.any (inRange n) <;> simp

/-- Every character is in the set of all. -/
theorem contains_all (c : Char) : all.contains c = true := by
  have h : c.toNat ≤ lastNumber := by
    have := c.valid
    simp only [lastNumber, Char.toNat, UInt32.isValidChar, Nat.isValidChar] at this ⊢
    omega
  simp [contains, all, inRange, h]

/-- Being in a complement is not being in the set. -/
theorem contains_complement (s : CharSet) (c : Char) :
    s.complement.contains c = !s.contains c := by
  simp only [complement, contains_diff, contains_all, Bool.true_and]

/-- The number of a character is outside the surrogates. -/
theorem toNat_lt_or_lt (c : Char) : c.toNat < 0xd800 ∨ 0xdfff < c.toNat := by
  have := c.valid
  simp only [Char.toNat, UInt32.isValidChar, Nat.isValidChar] at this ⊢
  omega

/-- A range keeps its characters when it is trimmed. -/
theorem any_trimmed (c : Char) (r : Nat × Nat) :
    (trimmed r).any (inRange c.toNat) = inRange c.toNat r := by
  have := toNat_lt_or_lt c
  rw [Bool.eq_iff_iff]
  unfold trimmed inRange
  simp only
  split <;> split <;> split <;>
    simp only [Option.any_some, Option.any_none, Bool.and_eq_true, decide_eq_true_eq,
      Bool.false_eq_true, false_iff, not_and] <;>
    omega

/-- The numbers of a joined range are added to the others. -/
theorem any_joinRange (n : Nat) (ranges : List (Nat × Nat)) (r : Nat × Nat) :
    (joinRange ranges r).any (inRange n) = (inRange n r || ranges.any (inRange n)) := by
  cases ranges with
  | nil => simp [joinRange]
  | cons last before =>
    simp only [joinRange]
    split
    · rw [List.any_cons, List.any_cons, ← Bool.or_assoc]
      congr 1
      rw [Bool.eq_iff_iff]
      simp only [inRange, Bool.or_eq_true, Bool.and_eq_true, decide_eq_true_eq]
      omega
    · simp only [List.any_cons]

/-- Joining ranges one by one keeps all their numbers. -/
theorem any_foldl_joinRange (n : Nat) (more ranges : List (Nat × Nat)) :
    (more.foldl joinRange ranges).any (inRange n) =
      (more.any (inRange n) || ranges.any (inRange n)) := by
  induction more generalizing ranges with
  | nil => simp
  | cons r rest ih =>
    simp only [List.foldl_cons, ih, any_joinRange, List.any_cons]
    cases inRange n r <;> cases rest.any (inRange n) <;> simp

/-- The canonical form has the same characters. -/
theorem contains_canonical (s : CharSet) (c : Char) :
    s.canonical.contains c = s.contains c := by
  simp only [contains, canonical, List.any_reverse, any_foldl_joinRange, List.any_nil,
    Bool.or_false, (List.mergeSort_perm _ _).any_eq]
  induction s.ranges with
  | nil => rfl
  | cons r rest ih =>
    rw [List.filterMap_cons, List.any_cons, ← any_trimmed]
    cases trimmed r <;> simp [ih]

end CharSet

end FirmwareSeal
