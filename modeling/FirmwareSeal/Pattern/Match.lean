import FirmwareSeal.Pattern.Basic

/-!
# Where a pattern occurs

Whether a pattern occurs in a text is found by following sets of places: `Pattern.ends` takes the
places where a piece may begin to the places where it may end, for every way to fit it at once.
-/

namespace FirmwareSeal

namespace Pattern

/-- Some of the places of a text: for each place, from before the first character to after the
last, whether it is one of them. -/
abbrev Places := List Bool

/-- The characters beside each place of a text. -/
def surroundings (text : List Char) : List (Option Char × Option Char) :=
  (none :: text.map some).zip (text.map some ++ [none])

/-- The places after a character of a set that begins at one of some places. -/
def afterChar (set : CharSet) (text : List Char) (places : Places) : Places :=
  false :: text.zipWith (fun c here ↦ here && set.contains c) places

/-- Those of some places that are as an anchor asks. -/
def heldPlaces (a : Anchor) (text : List Char) (places : Places) : Places :=
  places.zipWith (fun here beside ↦ here && a.holds beside.1 beside.2) (surroundings text)

/-- Takes a step a number of times. Places that a step does not change are not changed by more. -/
def repeated (step : Places → Places) : Nat → Places → Places
  | 0, places => places
  | n + 1, places =>
    let next := step places
    if next = places then places else repeated step n next

/-- Adds to the places reached so far what at most some number of steps from the latest of them
reaches. -/
def spread (step : Places → Places) : Nat → Places → Places → Places
  | 0, reached, _ => reached
  | n + 1, reached, latest =>
    let fresh := (step latest).zipWith (fun there known ↦ there && !known) reached
    if fresh.any id then spread step n (reached.zipWith (· || ·) fresh) fresh else reached

/-- The places where a piece that a pattern fits can end, if it begins at one of some places. -/
def ends (text : List Char) : Pattern → Places → Places
  | .empty => fun places ↦ places
  | .literal cs => cs.foldl fun places c ↦ afterChar (.single c) text places
  | .chars set _ => afterChar set text
  | .anchor a => heldPlaces a text
  | .seq first second => fun places ↦ ends text second (ends text first places)
  | .either left right => fun places ↦
    (ends text left places).zipWith (· || ·) (ends text right places)
  | .times body least most _ => fun places ↦
    let start := repeated (ends text body) least places
    let more := match most with
      | none => text.length + 1
      | some most => min (most - least) (text.length + 1)
    spread (ends text body) more start start
  | .group _ body => ends text body

/-- Whether a pattern fits a piece of a text. -/
def occursIn (p : Pattern) (text : String) : Bool :=
  (p.ends text.toList (List.replicate (text.toList.length + 1) true)).any id

end Pattern

end FirmwareSeal
