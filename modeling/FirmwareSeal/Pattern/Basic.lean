import FirmwareSeal.Pattern.CharSet

/-!
# Patterns of text

A pattern fits some pieces of a text: characters in a row, one character of a set, nothing at a
place of some kind, and what is made of these by order, choice, repetition and groups. Sequences
and alternatives associate to the right, so that each is a list of parts.
-/

namespace FirmwareSeal

/-- The characters of words. -/
def wordSet : CharSet := ⟨[(0x30, 0x39), (0x41, 0x5a), (0x5f, 0x5f), (0x61, 0x7a)]⟩

/-- What a place can be to the words beside it. -/
inductive WordEdge where
  /-- There is a word on one side only. -/
  | boundary
  /-- There is a word on both sides or on none. -/
  | elsewhere
  /-- A word begins here. -/
  | start
  /-- A word ends here. -/
  | finish
  /-- No word comes before. -/
  | notAfterWord
  /-- No word follows. -/
  | notBeforeWord
  deriving DecidableEq

/-- What a pattern can ask of a place in a text. A line may end in a line feed alone, or also in a
carriage return or in both together. Words may be those of ASCII or of all scripts. -/
inductive Anchor where
  | textStart
  | textEnd
  | lineStart (anyBreak : Bool)
  | lineEnd (anyBreak : Bool)
  | word (edge : WordEdge) (asciiOnly : Bool)
  deriving DecidableEq

/-- A pattern of text. -/
inductive Pattern where
  /-- Fits the piece without characters. -/
  | empty
  /-- Fits some characters one after the other. -/
  | literal (text : List Char)
  /-- Fits one character of a set; the set may have been asked for among ASCII. -/
  | chars (set : CharSet) (asciiOnly : Bool)
  /-- Fits the piece without characters at some places. -/
  | anchor (a : Anchor)
  /-- Fits a piece for one pattern followed by a piece for another. -/
  | seq (first second : Pattern)
  /-- Fits what either pattern fits. -/
  | either (left right : Pattern)
  /-- Fits a number of pieces for one pattern, one after the other; a greedy repetition tries many
  of them first. -/
  | times (body : Pattern) (least : Nat) (most : Option Nat) (greedy : Bool)
  /-- Fits what its body fits, and remembers the piece under a number. -/
  | group (number : Nat) (body : Pattern)
  deriving DecidableEq

/-- Whether a place is an edge, given whether a word character comes before it and follows. -/
def WordEdge.holds (edge : WordEdge) (before after : Bool) : Bool :=
  match edge with
  | .boundary => before != after
  | .elsewhere => before == after
  | .start => !before && after
  | .finish => before && !after
  | .notAfterWord => !before
  | .notBeforeWord => !after

/-- Whether a place is as an anchor asks, given the characters beside it. The words of other
scripts than ASCII are not known. -/
def Anchor.holds (a : Anchor) (before after : Option Char) : Bool :=
  match a with
  | .textStart => before.isNone
  | .textEnd => after.isNone
  | .lineStart anyBreak =>
    before.isNone || before == some '\n' ||
      (anyBreak && before == some '\r' && after != some '\n')
  | .lineEnd anyBreak =>
    after.isNone || (anyBreak && after == some '\r') ||
      (after == some '\n' && !(anyBreak && before == some '\r'))
  | .word edge _ => edge.holds (before.any wordSet.contains) (after.any wordSet.contains)

namespace Pattern

/-! ## Parts and branches -/

/-- The parts of a sequence, from the last to the first, in front of others. -/
def partsOnto (done : List Pattern) : Pattern → List Pattern
  | .seq first second => partsOnto (first :: done) second
  | p => p :: done

/-- The parts of a sequence; any other pattern is one part. -/
def parts (p : Pattern) : List Pattern := (partsOnto [] p).reverse

/-- The branches of a choice, from the last to the first, in front of others. -/
def branchesOnto (done : List Pattern) : Pattern → List Pattern
  | .either left right => branchesOnto (left :: done) right
  | p => p :: done

/-- The branches of a choice; any other pattern is one branch. -/
def branches (p : Pattern) : List Pattern := (branchesOnto [] p).reverse

/-- The sequence of some parts. -/
def ofParts (ps : List Pattern) : Pattern :=
  match ps.reverse with
  | [] => .empty
  | last :: before => before.foldl (fun after p ↦ .seq p after) last

/-- The pattern that fits nothing. -/
def nothing : Pattern := .chars .empty true

/-- The choice between some branches. -/
def ofBranches (ps : List Pattern) : Pattern :=
  match ps.reverse with
  | [] => nothing
  | last :: before => before.foldl (fun after p ↦ .either p after) last

/-! ## What a pattern can fit -/

/-- Whether a pattern fits nothing but the piece without characters. -/
def isEmptyOnly : Pattern → Bool
  | .empty | .anchor _ => true
  | .literal _ | .chars _ _ => false
  | .seq p q | .either p q => p.isEmptyOnly && q.isEmptyOnly
  | .times p _ most _ => p.isEmptyOnly && most.isSome
  | .group _ p => p.isEmptyOnly

/-- Whether a set without characters is part of a pattern. -/
def hasEmptySet : Pattern → Bool
  | .empty | .anchor _ | .literal _ => false
  | .chars set _ => set.isEmpty
  | .seq p q | .either p q => p.hasEmptySet || q.hasEmptySet
  | .times p _ _ _ | .group _ p => p.hasEmptySet

/-- Whether every piece that a pattern fits has a character. -/
def needsCharacter : Pattern → Bool
  | .empty | .anchor _ => false
  | .literal _ | .chars _ _ => true
  | .seq p q => p.needsCharacter || q.needsCharacter
  | .either p q => p.needsCharacter && q.needsCharacter
  | .times p least _ _ => least != 0 && p.needsCharacter
  | .group _ p => p.needsCharacter

/-- Whether a pattern fits nothing but pieces at the start of the text. -/
def beginsAtStart : Pattern → Bool
  | .anchor a => a == .textStart
  | .empty | .literal _ | .chars _ _ => false
  | .seq p q => p.beginsAtStart || (p.isEmptyOnly && q.beginsAtStart)
  | .either p q => p.beginsAtStart && q.beginsAtStart
  | .times p least _ _ => least != 0 && p.beginsAtStart
  | .group _ p => p.beginsAtStart

/-- Whether a pattern asks for the words of all scripts. -/
def asksForWords : Pattern → Bool
  | .anchor (.word _ asciiOnly) => !asciiOnly
  | .empty | .anchor _ | .literal _ | .chars _ _ => false
  | .seq p q | .either p q => p.asksForWords || q.asksForWords
  | .times p _ _ _ | .group _ p => p.asksForWords

end Pattern

end FirmwareSeal
