import FirmwareSeal.Pattern.Match
import Mathlib.Data.List.GetD

/-!
# Following sets of places

A step over the places of a text keeps their number, so the places after a step can be compared one
by one: `endsAt` says of one place whether a piece can end there. What a pattern made of others
fits is said through the places of the others, for a sequence in `endsAll` and for a choice in
`endsAt_either`. Repeating a step depends on nothing but the step.
-/

namespace FirmwareSeal

namespace Pattern

variable (text : List Char)

/-! ## The number of places -/

/-- There is one more place than there are characters. -/
theorem length_surroundings : (surroundings text).length = text.length + 1 := by
  simp [surroundings]

/-- Going over one character keeps the number of places. -/
theorem length_afterChar (set : CharSet) {places : Places}
    (h : places.length = text.length + 1) :
    (afterChar set text places).length = text.length + 1 := by
  simp [afterChar, h]

/-- Asking for an anchor keeps the number of places. -/
theorem length_heldPlaces (a : Anchor) {places : Places}
    (h : places.length = text.length + 1) :
    (heldPlaces a text places).length = text.length + 1 := by
  simp [heldPlaces, length_surroundings, h]

/-- Whether a step over some number of places keeps their number. -/
def KeepsNumber (n : Nat) (step : Places → Places) : Prop :=
  ∀ places : Places, places.length = n → (step places).length = n

section

variable {n : Nat} {step : Places → Places} (hstep : KeepsNumber n step)

include hstep

/-- Repeating a step keeps the number of places if the step does. -/
theorem length_repeated (count : Nat) {places : Places} (h : places.length = n) :
    (repeated step count places).length = n := by
  induction count generalizing places with
  | zero => exact h
  | succ count ih =>
    rw [repeated]
    split
    · exact h
    · exact ih (hstep places h)

/-- Spreading by a step keeps the number of places if the step does. -/
theorem length_spread (count : Nat) {reached latest : Places} (hr : reached.length = n)
    (hl : latest.length = n) : (spread step count reached latest).length = n := by
  induction count generalizing reached latest with
  | zero => exact hr
  | succ count ih =>
    rw [spread]
    split
    · exact ih (by simp [hr, hstep latest hl]) (by simp [hr, hstep latest hl])
    · exact hr

/-- A step is repeated as any other that does the same. -/
theorem repeated_congr {other : Places → Places}
    (h : ∀ places, places.length = n → step places = other places)
    (count : Nat) {places : Places} (hp : places.length = n) :
    repeated step count places = repeated other count places := by
  induction count generalizing places with
  | zero => rfl
  | succ count ih =>
    rw [repeated, repeated, ← h places hp, ih (hstep places hp)]

/-- A step spreads as any other that does the same. -/
theorem spread_congr {other : Places → Places}
    (h : ∀ places, places.length = n → step places = other places)
    (count : Nat) {reached latest : Places} (hr : reached.length = n) (hl : latest.length = n) :
    spread step count reached latest = spread other count reached latest := by
  induction count generalizing reached latest with
  | zero => rfl
  | succ count ih =>
    rw [spread, spread, ← h latest hl,
      ih (by simp [hr, hstep latest hl]) (by simp [hr, hstep latest hl])]

end

/-- A pattern keeps the number of places. -/
theorem length_ends (p : Pattern) {places : Places} (h : places.length = text.length + 1) :
    (p.ends text places).length = text.length + 1 := by
  induction p generalizing places with
  | empty => exact h
  | literal cs =>
    rw [ends]
    induction cs generalizing places with
    | nil => exact h
    | cons c cs ih => exact ih (length_afterChar text _ h)
  | chars set asciiOnly => exact length_afterChar text set h
  | anchor a => exact length_heldPlaces text a h
  | seq first second ihFirst ihSecond => exact ihSecond (ihFirst h)
  | either left right ihLeft ihRight => simp [ends, ihLeft h, ihRight h]
  | times body least most greedy ih =>
    have hstart := length_repeated (fun _ ↦ ih) least h
    exact length_spread (fun _ ↦ ih) _ hstart hstart
  | group number body ih => exact ih h

/-! ## Place by place -/

/-- Whether a place is one of some places. -/
def Places.has (places : Places) (i : Nat) : Bool := places.getD i false

/-- Places of one number are determined by what they have. -/
theorem Places.ext_has {a b : Places} (hlength : a.length = b.length)
    (h : ∀ i, a.has i = b.has i) : a = b := by
  refine List.ext_getElem hlength ?_
  intro i ha hb
  rw [← List.getD_eq_getElem _ false ha, ← List.getD_eq_getElem _ false hb]
  exact h i

/-- Combining places of one number combines what they have. -/
theorem Places.has_zipWith {f : Bool → Bool → Bool} (hf : f false false = false) {a b : Places}
    (hlength : a.length = b.length) (i : Nat) :
    Places.has (a.zipWith f b) i = f (a.has i) (b.has i) := by
  simp only [has, List.getD_eq_getElem?_getD, List.getElem?_zipWith]
  by_cases h : i < a.length
  · rw [List.getElem?_eq_getElem h, List.getElem?_eq_getElem (hlength ▸ h)]
    rfl
  · rw [List.getElem?_eq_none (by omega), List.getElem?_eq_none (by omega)]
    exact hf.symm

/-- Some places are not none if one of them can be given. -/
theorem Places.any_id_iff (places : Places) :
    places.any id = true ↔ ∃ i, places.has i = true := by
  rw [List.any_eq_true]
  constructor
  · rintro ⟨here, hmem, hhere⟩
    obtain ⟨i, hi, rfl⟩ := List.getElem_of_mem hmem
    exact ⟨i, by rwa [has, List.getD_eq_getElem _ _ hi]⟩
  · rintro ⟨i, hi⟩
    by_cases hlt : i < places.length
    · rw [has, List.getD_eq_getElem _ _ hlt] at hi
      exact ⟨places[i], List.getElem_mem hlt, hi⟩
    · rw [has, List.getD_eq_default _ _ (Nat.le_of_not_lt hlt)] at hi
      cases hi

/-- Whether a piece that a pattern fits can end at a place, if it begins at one of some places. -/
def endsAt (places : Places) (i : Nat) (p : Pattern) : Bool := (p.ends text places).has i

/-- What either pattern fits is fitted by their choice. -/
theorem endsAt_either (p q : Pattern) {places : Places} (h : places.length = text.length + 1)
    (i : Nat) :
    (Pattern.either p q).endsAt text places i =
      (p.endsAt text places i || q.endsAt text places i) :=
  Places.has_zipWith rfl ((length_ends text p h).trans (length_ends text q h).symm) i

/-- A place lies behind a character of a set if the character before it is one, and the place
before that is one of those where to begin. -/
theorem has_afterChar_succ (set : CharSet) (places : Places) (i : Nat) :
    Places.has (afterChar set text places) (i + 1) =
      (places.has i && text[i]?.any set.contains) := by
  simp only [Places.has, afterChar, List.getD_eq_getElem?_getD, List.getElem?_cons_succ,
    List.getElem?_zipWith]
  cases text[i]? <;> cases places[i]? <;> simp

/-- Only the characters of a set decide what lies behind one of them. -/
theorem afterChar_congr {s t : CharSet} (h : ∀ c, s.contains c = t.contains c)
    (places : Places) : afterChar s text places = afterChar t text places := by
  simp only [afterChar, h]

/-! ## One pattern after the other -/

/-- The places where pieces for some patterns, one after the other, can end. -/
def endsAll (ps : List Pattern) (places : Places) : Places :=
  ps.foldl (fun places p ↦ p.ends text places) places

/-- The first of some patterns is followed first. -/
theorem endsAll_cons (p : Pattern) (ps : List Pattern) (places : Places) :
    endsAll text (p :: ps) places = endsAll text ps (p.ends text places) := rfl

/-- Patterns that come first are followed first. -/
theorem endsAll_append (ps qs : List Pattern) (places : Places) :
    endsAll text (ps ++ qs) places = endsAll text qs (endsAll text ps places) :=
  List.foldl_append

/-- Patterns one after the other keep the number of places. -/
theorem length_endsAll (ps : List Pattern) {places : Places}
    (h : places.length = text.length + 1) :
    (endsAll text ps places).length = text.length + 1 := by
  induction ps generalizing places with
  | nil => exact h
  | cons p ps ih => exact ih (length_ends text p h)

/-! ## Repetitions -/

/-- A body that fits what another fits is repeated as the other is. -/
theorem ends_times_congr {p q : Pattern}
    (h : ∀ places : Places, places.length = text.length + 1 →
      p.ends text places = q.ends text places)
    (least : Nat) (most : Option Nat) (greedy : Bool) {places : Places}
    (hp : places.length = text.length + 1) :
    (times p least most greedy).ends text places =
      (times q least most greedy).ends text places := by
  have hstep : KeepsNumber (text.length + 1) (p.ends text) := fun _ ↦ length_ends text p
  have hstart := length_repeated hstep least hp
  simp only [ends]
  rw [spread_congr hstep h _ hstart hstart, repeated_congr hstep h _ hp]

end Pattern

end FirmwareSeal
