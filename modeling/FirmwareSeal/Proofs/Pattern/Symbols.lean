import FirmwareSeal.Proofs.Pattern.NormalForm
import Mathlib

/-!
# What symbols fit

A symbol of a written pattern stands for some characters, and the options have a say in it: they
may join the cases of letters, or let a point be any character. If a symbol is read as a pattern at
all, and is no condition on a place, the pattern occurs in the texts that have one of these
characters (`occursIn_of_toPattern`).
-/

namespace FirmwareSeal

namespace CharSet

/-! ## Both cases of letters -/

/-- Whether no range of a set is turned around. -/
def IsOrdered (s : CharSet) : Prop := ∀ r ∈ s.ranges, r.1 ≤ r.2

/-- What a cut leaves of an ordered range is ordered. -/
theorem le_of_mem_cutRange {cut r p : Nat × Nat} (h : r.1 ≤ r.2) (hp : p ∈ cutRange cut r) :
    p.1 ≤ p.2 := by
  unfold cutRange at hp
  simp only [List.mem_append, List.mem_ite_nil_right, List.mem_singleton] at hp
  rcases hp with ⟨hbefore, rfl⟩ | ⟨hafter, rfl⟩
  · simp only [Nat.le_min]
    omega
  · simp only [Nat.max_le]
    omega

/-- What is left of an ordered set is ordered. -/
theorem IsOrdered.diff {s : CharSet} (h : s.IsOrdered) (t : CharSet) : (s.diff t).IsOrdered := by
  have each (cuts left : List (Nat × Nat)) (hleft : ∀ r ∈ left, r.1 ≤ r.2) :
      ∀ r ∈ cuts.foldl (fun left cut ↦ left.flatMap (cutRange cut)) left, r.1 ≤ r.2 := by
    induction cuts generalizing left with
    | nil => exact hleft
    | cons cut cuts ih =>
      refine ih _ fun p hp ↦ ?_
      obtain ⟨r, hr, hp⟩ := List.mem_flatMap.mp hp
      exact le_of_mem_cutRange (hleft r hr) hp
  exact each t.ranges s.ranges h

section

variable {s : CharSet} (h : s.IsOrdered) {first last : Nat}

include h

/-- A piece of a set within a range is moved with the numbers in it. -/
theorem inRange_moved {r : Nat × Nat} (hr : r ∈ (s.inter ⟨[(first, last)]⟩).ranges)
    (start n : Nat) :
    inRange n (r.1 - first + start, r.2 - first + start) = true ↔
      start ≤ n ∧ inRange (n - start + first) r = true := by
  -- The ends of the piece are numbers in it, so they are not before the range.
  have hordered : r.1 ≤ r.2 := h.diff _ r hr
  have hmem : (s.inter ⟨[(first, last)]⟩).ranges.any (inRange r.1) = true :=
    List.any_eq_true.mpr ⟨r, hr, by simp [inRange, hordered]⟩
  rw [any_inter, Bool.and_eq_true] at hmem
  have hfirst : first ≤ r.1 := by
    simp only [List.any_cons, List.any_nil, Bool.or_false] at hmem
    simp only [inRange, Bool.and_eq_true, decide_eq_true_eq] at hmem
    exact hmem.2.1
  simp only [inRange, Bool.and_eq_true, decide_eq_true_eq]
  omega

/-- The numbers of a set within a range are moved to where another range begins. -/
theorem any_moved (hle : first ≤ last) (start n : Nat) :
    (s.moved first last start).any (inRange n) = true ↔
      (start ≤ n ∧ n ≤ start + (last - first)) ∧
        s.ranges.any (inRange (n - start + first)) = true :=
  calc (s.moved first last start).any (inRange n) = true
    _ ↔ ∃ r ∈ (s.inter ⟨[(first, last)]⟩).ranges,
        start ≤ n ∧ inRange (n - start + first) r = true := by
      rw [moved, List.any_map, List.any_eq_true]
      exact exists_congr fun r ↦ and_congr_right fun hr ↦ inRange_moved h hr start n
    _ ↔ start ≤ n ∧
        (s.inter ⟨[(first, last)]⟩).ranges.any (inRange (n - start + first)) = true := by
      rw [List.any_eq_true]
      constructor
      · rintro ⟨r, hr, hn, hin⟩
        exact ⟨hn, r, hr, hin⟩
      · rintro ⟨hn, r, hr, hin⟩
        exact ⟨r, hr, hn, hin⟩
    _ ↔ _ := by
      rw [any_inter, List.any_cons, List.any_nil, Bool.or_false]
      have hback : start ≤ n ∧ first ≤ n - start + first ∧ n - start + first ≤ last ↔
          start ≤ n ∧ n ≤ start + (last - first) := by omega
      rw [Bool.and_eq_true, and_comm (b := inRange _ _ = true), ← and_assoc, ← hback]
      simp only [inRange, Bool.and_eq_true, decide_eq_true_eq]

end

/-- The number of a small letter is 32 more than that of its capital. -/
theorem toNat_toLower (c : Char) :
    c.toLower.toNat =
      if 0x41 ≤ c.toNat ∧ c.toNat ≤ 0x5a then c.toNat - 0x41 + 0x61 else c.toNat := by
  have hupper : c.isUpper = true ↔ 0x41 ≤ c.toNat ∧ c.toNat ≤ 0x5a := by
    simp [Char.isUpper, UInt32.le_iff_toNat_le]
  split
  · next h =>
    have hvalid : (c.toNat + 32).isValidChar := .inl (by omega)
    rw [Char.toLower_eq_of_isUpper (hupper.mpr h), Char.toNat_ofNat, if_pos hvalid]
    omega
  · next h => rw [Char.toLower_eq_of_not_isUpper (mt hupper.mp h)]

/-- The number of a capital is 32 less than that of its small letter. -/
theorem toNat_toUpper (c : Char) :
    c.toUpper.toNat =
      if 0x61 ≤ c.toNat ∧ c.toNat ≤ 0x7a then c.toNat - 0x61 + 0x41 else c.toNat := by
  have hlower : c.isLower = true ↔ 0x61 ≤ c.toNat ∧ c.toNat ≤ 0x7a := by
    simp [Char.isLower, UInt32.le_iff_toNat_le]
  split
  · next h =>
    have hvalid : (c.toNat - 32).isValidChar := .inl (by omega)
    rw [Char.toUpper_eq_of_isLower (hlower.mpr h), Char.toNat_ofNat, if_pos hvalid]
    omega
  · next h => rw [Char.toUpper_eq_of_not_isLower (mt hlower.mp h)]

/-- A set with both cases of its letters has the characters one case of which is in the set. -/
theorem contains_withBothCases {s : CharSet} (h : s.IsOrdered) (c : Char) :
    s.withBothCases.contains c = (s.contains c.toLower || s.contains c.toUpper) := by
  rw [Bool.eq_iff_iff]
  simp only [contains, withBothCases, List.any_append, Bool.or_eq_true, toNat_toLower,
    toNat_toUpper]
  rw [any_moved h (by decide), any_moved h (by decide)]
  -- A character is a capital, a small letter or neither, and one of the moves at most is about it.
  by_cases hupper : 0x41 ≤ c.toNat ∧ c.toNat ≤ 0x5a
  · have hnotLower : ¬ (0x61 ≤ c.toNat ∧ c.toNat ≤ 0x7a) := by omega
    simp [hupper, hnotLower, or_comm]
  · by_cases hlower : 0x61 ≤ c.toNat ∧ c.toNat ≤ 0x7a
    · simp [hupper, hlower]
    · simp [hupper, hlower]

end CharSet

namespace Pattern

/-! ## Symbols -/

/-- Whether a symbol stands for a character, under some options. -/
def Symbol.standsFor (o : Options) (c : Char) : Symbol → Bool
  | .char d _ => if o.caseless then d.toLower == c.toLower else d == c
  | .point => o.pointIsAll || (c != '\n' && !(o.anyBreak && c == '\r'))
  | .named set negated => set.contains c != negated
  | .anchor _ => false

/-- Characters are the same in one case if one of them is the other in one of its cases. -/
theorem beq_toLower_or_beq_toUpper (c d : Char) :
    (d == c.toLower || d == c.toUpper) = (d.toLower == c.toLower) := by
  rw [Bool.eq_iff_iff, Bool.or_eq_true, beq_iff_eq, beq_iff_eq, beq_iff_eq]
  constructor
  · rintro (rfl | rfl)
    · exact Char.toLower_toLower_eq_toLower c
    · exact Char.toLower_toUpper_eq_toLower c
  · intro h
    by_cases hupper : d.isUpper
    · right
      rw [← Char.toUpper_eq_of_not_isLower (Char.not_isLower_of_isUpper hupper),
        ← Char.toUpper_toLower_eq_toUpper d, h, Char.toUpper_toLower_eq_toUpper]
    · left
      rw [← h, Char.toLower_eq_of_not_isUpper hupper]

/-- The set of one character under some options has the characters that are the same. -/
theorem contains_of_folded_single {o : Options} {d : Char} {set : CharSet}
    (h : o.folded (.single d) = .ok set) (c : Char) :
    set.contains c = if o.caseless then d.toLower == c.toLower else d == c := by
  have hordered : (CharSet.single d).IsOrdered := by simp [CharSet.IsOrdered, CharSet.single]
  unfold Options.folded at h
  cases hcase : o.caseless with
  | false =>
    simp only [hcase, Bool.not_false, if_true, Except.ok.injEq] at h
    rw [← h, contains_single]
    rfl
  | true =>
    cases hascii : o.asciiOnly with
    | false => simp [hcase, hascii, CharSet.single, CharSet.isEmpty] at h
    | true =>
      simp only [hcase, hascii, Bool.not_true, Bool.false_eq_true, if_false, if_true,
        Except.ok.injEq] at h
      rw [← h, CharSet.contains_withBothCases hordered, contains_single, contains_single,
        beq_toLower_or_beq_toUpper]
      rfl

/-- A named set, possibly turned around, has the characters that it is asked for. -/
theorem contains_of_named {o : Options} {set result : CharSet} {negated : Bool}
    (h : o.named set negated = .ok result) (c : Char) :
    result.contains c = (set.contains c != negated) := by
  unfold Options.named Options.negated at h
  cases hascii : o.asciiOnly with
  | false => simp [hascii] at h
  | true =>
    cases negated with
    | true => simp [hascii] at h
    | false =>
      simp only [hascii, Bool.not_false, if_true, Except.ok.injEq] at h
      rw [← h, Bool.bne_false]

/-- A point that is read as a pattern is read as the set of all characters, or of those that do not
end a line. -/
theorem pointPattern_eq_ofSet {o : Options} {p : Pattern} (h : pointPattern o = .ok p) :
    ∃ set : CharSet, p = ofSet false set ∧ ∀ c, set.contains c = Symbol.point.standsFor o c := by
  have hsingle (d c : Char) : (CharSet.single d).contains c = (c == d) := by
    rw [contains_single, Bool.beq_comm]
  unfold pointPattern at h
  split at h
  · cases h
  · split at h
    · next hall =>
      cases h
      refine ⟨_, rfl, fun c ↦ ?_⟩
      rw [CharSet.contains_all, Symbol.standsFor, hall, Bool.true_or]
    · next hall =>
      split at h
      · next hbreak =>
        cases h
        refine ⟨_, rfl, fun c ↦ ?_⟩
        rw [CharSet.contains_complement, CharSet.contains_union, hsingle, hsingle, Bool.not_or]
        simp [Symbol.standsFor, hall, hbreak, bne]
      · next hbreak =>
        cases h
        refine ⟨_, rfl, fun c ↦ ?_⟩
        rw [CharSet.contains_complement, hsingle]
        simp [Symbol.standsFor, hall, hbreak, bne]

/-- A symbol that is read as a pattern, and is no condition on a place, is read as a set of the
characters that it stands for. -/
theorem toPattern_eq_ofSet {o : Options} {symbol : Symbol} {p : Pattern}
    (h : symbol.toPattern o = .ok p) (hsymbol : ∀ a, symbol ≠ .anchor a) :
    ∃ set asciiOnly, p = ofSet asciiOnly set ∧ ∀ c, set.contains c = symbol.standsFor o c := by
  cases symbol with
  | char d isByte =>
    simp only [Symbol.toPattern, bind, Except.bind, pure, Except.pure] at h
    split at h
    · cases h
    · split at h
      · cases h
      · next set hfolded =>
        cases h
        exact ⟨set, o.asciiOnly, rfl, contains_of_folded_single hfolded⟩
  | point =>
    obtain ⟨set, hp, hset⟩ := pointPattern_eq_ofSet h
    exact ⟨set, false, hp, hset⟩
  | named set negated =>
    simp only [Symbol.toPattern] at h
    cases hnamed : o.named set negated with
    | error e => simp [hnamed, Except.map] at h
    | ok result =>
      simp only [hnamed, Except.map, Except.ok.injEq] at h
      exact ⟨result, o.asciiOnly, h.symm, contains_of_named hnamed⟩
  | anchor a => exact absurd rfl (hsymbol a)

/-- A set occurs in the texts that have one of its characters. -/
theorem occursIn_ofSet (asciiOnly : Bool) (set : CharSet) (text : String) :
    (ofSet asciiOnly set).occursIn text = text.toList.any set.contains := by
  have hany (cs : List Char) :
      (cs.zipWith (fun c here ↦ here && set.contains c)
        (List.replicate (cs.length + 1) true)).any id = cs.any set.contains := by
    induction cs with
    | nil => rfl
    | cons c cs ih =>
      rw [List.length_cons, List.replicate_succ, List.zipWith_cons_cons, List.any_cons, ih,
        List.any_cons]
      rfl
  rw [occursIn, ends_ofSet, ← hany]
  rfl

/-- A symbol that is read as a pattern occurs in the texts that have a character that it stands
for. -/
theorem occursIn_of_toPattern {o : Options} {symbol : Symbol} {p : Pattern}
    (h : symbol.toPattern o = .ok p) (hsymbol : ∀ a, symbol ≠ .anchor a) (text : String) :
    p.occursIn text = text.toList.any (symbol.standsFor o) := by
  obtain ⟨set, asciiOnly, rfl, hset⟩ := toPattern_eq_ofSet h hsymbol
  rw [occursIn_ofSet]
  exact List.any_congr rfl hset

end Pattern

end FirmwareSeal
