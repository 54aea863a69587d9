import FirmwareSeal.Bytes

/-!
# Trees of files

A tree holds directories and regular files, each at a location: the list of names that leads to it
from the top directory, which is always there. Inserting replaces what a location holds; erasing
what was inserted at a free location gives the tree back.
-/

namespace FirmwareSeal

/-- The names that lead from the top directory to an entry. -/
abbrev Location := List String

/-- What a location holds. -/
inductive Entry where
  | file (content : Bytes)
  | directory
  deriving DecidableEq

/-- A tree of files: the entries below the top directory with their locations. -/
structure FileTree where
  entries : List (Location × Entry)
  deriving DecidableEq

namespace FileTree

/-- The tree with nothing but the top directory. -/
def empty : FileTree := ⟨[]⟩

/-- What a location holds; the empty location is the top directory. -/
def lookup (t : FileTree) (l : Location) : Option Entry :=
  if l = [] then some .directory else (t.entries.find? fun p ↦ p.1 = l).map Prod.snd

/-- The tree with an entry at a location, in place of what was there. -/
def insert (t : FileTree) (l : Location) (e : Entry) : FileTree :=
  if t.entries.any fun p ↦ p.1 = l then
    ⟨t.entries.map fun p ↦ if p.1 = l then (l, e) else p⟩
  else
    ⟨t.entries ++ [(l, e)]⟩

/-- The tree without the entry at a location. -/
def erase (t : FileTree) (l : Location) : FileTree :=
  ⟨t.entries.filter fun p ↦ p.1 ≠ l⟩

/-- The entries of a tree that an earlier tree did not have, or had otherwise. -/
def changedSince (t earlier : FileTree) : List (Location × Entry) :=
  t.entries.filter fun p ↦ earlier.lookup p.1 ≠ some p.2

/-- The locations that an earlier tree had and this one has not. -/
def removedSince (t earlier : FileTree) : List Location :=
  (earlier.entries.map Prod.fst).filter fun l ↦ t.lookup l = none

/-- A location holds nothing if no entry has it. -/
theorem lookup_eq_none_iff {t : FileTree} {l : Location} :
    t.lookup l = none ↔ l ≠ [] ∧ ∀ p ∈ t.entries, p.1 ≠ l := by
  unfold lookup
  split
  · next h => simp [h]
  · next h => simp [h]

/-- Erasing what was inserted at a free location gives the tree back. -/
theorem erase_insert_of_lookup_eq_none {t : FileTree} {l : Location} (e : Entry)
    (h : t.lookup l = none) : (t.insert l e).erase l = t := by
  have hf := (lookup_eq_none_iff.mp h).2
  have ha : t.entries.any (fun p ↦ p.1 = l) = false := by
    rw [List.any_eq_false]
    intro p hp
    simpa using hf p hp
  have hk : t.entries.filter (fun p ↦ p.1 ≠ l) = t.entries := by
    rw [List.filter_eq_self]
    intro p hp
    simpa using hf p hp
  rw [insert, ha, if_neg Bool.false_ne_true, erase, List.filter_append, hk]
  simp

/-- What is inserted last stays. -/
theorem insert_insert (t : FileTree) (l : Location) (e e' : Entry) :
    (t.insert l e).insert l e' = t.insert l e' := by
  by_cases h : t.entries.any (fun p ↦ p.1 = l) = true
  · have hreplaced : ((t.insert l e).entries.any fun p ↦ p.1 = l) = true := by
      simp only [insert, if_pos h, List.any_map]
      rw [List.any_eq_true] at h ⊢
      obtain ⟨p, hp, hpl⟩ := h
      exact ⟨p, hp, by simp_all⟩
    rw [insert, if_pos hreplaced, insert, if_pos h, insert, if_pos h]
    simp only [List.map_map]
    congr 2
    funext p
    by_cases hp : p.1 = l <;> simp [hp]
  · have hkept : (t.entries.map fun p ↦ if p.1 = l then (l, e') else p) = t.entries := by
      have hne (p : Location × Entry) (hp : p ∈ t.entries) : p.1 ≠ l := by
        intro hpl
        exact h (List.any_eq_true.mpr ⟨p, hp, decide_eq_true hpl⟩)
      exact (List.map_congr_left fun p hp ↦ if_neg (hne p hp)).trans (List.map_id' _)
    rw [insert, insert, if_neg h, insert, if_neg h, if_pos (by simp), List.map_append, hkept]
    simp

/-- Where an entry is found, its replacement is found after it was replaced. -/
private theorem find?_map_replace (es : List (Location × Entry)) (l k : Location) (e : Entry) :
    ((es.map fun p ↦ if p.1 = l then (l, e) else p).find? fun p ↦ p.1 = k) =
      (es.find? fun p ↦ p.1 = k).map fun p ↦ if p.1 = l then (l, e) else p := by
  induction es with
  | nil => rfl
  | cons p es ih =>
    rw [List.map_cons, List.find?_cons, List.find?_cons, ih]
    by_cases hp : p.1 = l
    · by_cases hk : l = k <;> simp [hp, hk]
    · rw [if_neg hp]
      by_cases hk : p.1 = k
      · simp [hk, hk ▸ hp]
      · simp [hk]

/-- An inserted entry is found. -/
theorem lookup_insert_self (t : FileTree) {l : Location} (e : Entry) (hl : l ≠ []) :
    (t.insert l e).lookup l = some e := by
  rw [lookup, if_neg hl, insert]
  split
  · next h =>
    rw [find?_map_replace]
    obtain ⟨p, hp⟩ := List.find?_isSome.mpr (List.any_eq_true.mp h) |> Option.isSome_iff_exists.mp
    have hpl : p.1 = l := by simpa using List.find?_some hp
    simp [hp, hpl]
  · next h =>
    have hn : t.entries.find? (fun p ↦ p.1 = l) = none := by
      rw [List.find?_eq_none]
      intro p hp hpl
      exact h (List.any_eq_true.mpr ⟨p, hp, hpl⟩)
    simp [List.find?_append, hn]

/-- Inserting changes no other location. -/
theorem lookup_insert_of_ne (t : FileTree) {l k : Location} (e : Entry) (h : k ≠ l) :
    (t.insert l e).lookup k = t.lookup k := by
  unfold lookup
  split
  · rfl
  · rw [insert]
    split
    · rw [find?_map_replace]
      cases hp : t.entries.find? fun p ↦ p.1 = k with
      | none => rfl
      | some p =>
        have hpk : p.1 = k := by simpa using List.find?_some hp
        simp [hpk, h]
    · simp [List.find?_append, h.symm]

/-- Nothing is found at an erased location. -/
theorem lookup_erase_self (t : FileTree) {l : Location} (hl : l ≠ []) :
    (t.erase l).lookup l = none :=
  lookup_eq_none_iff.mpr ⟨hl, fun p hp ↦ by simpa using (List.mem_filter.mp hp).2⟩

/-- Erasing changes no other location. -/
theorem lookup_erase_of_ne (t : FileTree) {l k : Location} (h : k ≠ l) :
    (t.erase l).lookup k = t.lookup k := by
  unfold lookup
  split
  · rfl
  · rw [erase, List.find?_filter]
    congr 2
    funext p
    by_cases hp : p.1 = k <;> simp [hp, h]

end FileTree

end FirmwareSeal
