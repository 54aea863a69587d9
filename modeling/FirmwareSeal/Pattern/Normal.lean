import FirmwareSeal.Pattern.Match

/-!
# Patterns in normal form

Patterns that fit the same pieces are brought to a common form where that is easy to see: sequences
and choices are flat, neighbouring literals are one, a choice between characters is a set, and what
all branches of a choice begin with stands in front of it. The form decides how large the matching
machine of a pattern is. It does not change what a pattern fits.
-/

namespace FirmwareSeal

namespace Pattern

/-! ## Sets -/

/-- The pattern of one character of a set. -/
def ofSet (asciiOnly : Bool) (s : CharSet) : Pattern :=
  match s.canonical.ranges with
  | [] => nothing
  | [(first, last)] =>
    if first = last ∧ first.isValidChar then .literal [Char.ofNat first]
    else .chars s.canonical asciiOnly
  | _ => .chars s.canonical asciiOnly

/-! ## Sequences -/

/-- Puts a part in front of others. What fits no characters anywhere is left out, and a literal
grows the literal that follows it. -/
def consPart (p : Pattern) (rest : List Pattern) : List Pattern :=
  match p, rest with
  | .empty, rest => rest
  | .literal text, .literal more :: rest => .literal (text ++ more) :: rest
  | p, rest => p :: rest

/-- The pattern that fits pieces for some patterns one after the other. -/
def concat (ps : List Pattern) : Pattern := ofParts ((ps.flatMap parts).foldr consPart [])

/-! ## Choices -/

/-- The character that alone is a pattern. -/
def asChar? : Pattern → Option Char
  | .literal [c] => some c
  | _ => none

/-- The set of whose characters a pattern fits one. -/
def asSet? : Pattern → Option CharSet
  | .chars set _ => some set
  | _ => none

/-- The parts of a pattern that has several of them. -/
def severalParts? : Pattern → Option (List Pattern)
  | .seq first second => some (Pattern.seq first second).parts
  | _ => none

/-- What two lists of parts both begin with. -/
def commonParts (ps qs : List Pattern) : List Pattern :=
  ((ps.zip qs).takeWhile fun pair ↦ decide (pair.1 = pair.2)).map (·.1)

/-- What all of some branches begin with, if each of them has several parts. -/
def commonStart (ps : List Pattern) : List Pattern :=
  match ps.mapM severalParts? with
  | some (parts :: others) => others.foldl commonParts parts
  | _ => []

/-- The set of whose characters each of some branches fits one: they are all single characters, or
they are all sets. -/
def commonSet? (ps : List Pattern) : Option CharSet :=
  match ps.mapM asChar? with
  | some cs => some ⟨cs.map fun c ↦ (c.toNat, c.toNat)⟩
  | none => (ps.mapM asSet?).map fun sets ↦ ⟨sets.flatMap (·.ranges)⟩

/-- The pattern that fits what any of some patterns fits. What all branches begin with is put in
front of the choice between what follows it, at most so many times. -/
def alternationWithin : Nat → List Pattern → Pattern
  | fuel, ps =>
    match ps.flatMap branches with
    | [] => nothing
    | [p] => p
    | ps =>
      match commonSet? ps with
      | some set => ofSet false set
      | none =>
        match fuel, commonStart ps with
        | fuel + 1, first :: more =>
          let rest := ps.map fun p ↦ concat (p.parts.drop (more.length + 1))
          concat (first :: more ++ [alternationWithin fuel rest])
        | _, _ => ofBranches ps

/-- Adds the number of the smallest patterns that a pattern is made of to a number. -/
def addLeaves (n : Nat) : Pattern → Nat
  | .seq p q | .either p q => addLeaves (addLeaves n p) q
  | .times p _ _ _ | .group _ p => addLeaves n p
  | _ => n + 1

/-- The pattern that fits what any of some patterns fits. Every part that is put in front of a
choice leaves fewer of the smallest patterns in it. -/
def alternation (ps : List Pattern) : Pattern := alternationWithin (ps.foldl addLeaves 0) ps

/-! ## Repetitions -/

/-- The pattern that fits a number of pieces for one pattern. Fitting no characters several times
is fitting them once. -/
def repetition (body : Pattern) (least : Nat) (most : Option Nat) (greedy : Bool) : Pattern :=
  let (least, most) :=
    if body.isEmptyOnly then (min least 1, some (min (most.getD 1) 1)) else (least, most)
  match least, most with
  | 0, some 0 => .empty
  | 1, some 1 => body
  | least, most => .times body least most greedy

end Pattern

end FirmwareSeal
