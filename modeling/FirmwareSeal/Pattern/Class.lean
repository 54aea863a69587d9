import FirmwareSeal.Pattern.Token

/-!
# Sets of characters in brackets

A set in brackets is written as characters, ranges, named sets and further sets in brackets, one
after the other; two such unions may be combined by an operator, from left to right. The reader
keeps what is still open in a list of frames, so that it takes one part after the other.
-/

namespace FirmwareSeal

namespace Pattern

/-! ## Sets under options -/

/-- A set with what the options make the same as its characters. -/
def Options.folded (o : Options) (s : CharSet) : Except PatternSyntaxError CharSet :=
  if !o.caseless then .ok s
  else if o.asciiOnly then .ok s.withBothCases
  else if s.isEmpty then .ok s
  else .error .noTables

/-- What is not in a set. Among single bytes that is never text alone. -/
def Options.negated (o : Options) (negated : Bool) (s : CharSet) :
    Except PatternSyntaxError CharSet :=
  if !negated then .ok s else if o.asciiOnly then .error .loneBytes else .ok s.canonical.complement

/-- A named set. Its members beyond ASCII are not known. -/
def Options.named (o : Options) (s : CharSet) (negated : Bool) :
    Except PatternSyntaxError CharSet :=
  if o.asciiOnly then o.negated negated s else .error .noTables

/-- The set that has a name in brackets and colons. -/
def classOfName? : String → Option CharSet
  | "alnum" => some ⟨[(0x30, 0x39), (0x41, 0x5a), (0x61, 0x7a)]⟩
  | "alpha" => some ⟨[(0x41, 0x5a), (0x61, 0x7a)]⟩
  | "ascii" => some ⟨[(0, 0x7f)]⟩
  | "blank" => some ⟨[(9, 9), (0x20, 0x20)]⟩
  | "cntrl" => some ⟨[(0, 0x1f), (0x7f, 0x7f)]⟩
  | "digit" => some digitSet
  | "graph" => some ⟨[(0x21, 0x7e)]⟩
  | "lower" => some ⟨[(0x61, 0x7a)]⟩
  | "print" => some ⟨[(0x20, 0x7e)]⟩
  | "punct" => some ⟨[(0x21, 0x2f), (0x3a, 0x40), (0x5b, 0x60), (0x7b, 0x7e)]⟩
  | "space" => some spaceSet
  | "upper" => some ⟨[(0x41, 0x5a)]⟩
  | "word" => some wordSet
  | "xdigit" => some ⟨[(0x30, 0x39), (0x41, 0x46), (0x61, 0x66)]⟩
  | _ => none

/-- The named set that a text begins with after a bracket, whether it is negated, and what
follows. -/
def namedClass? : List Char → Option ((CharSet × Bool) × List Char)
  | ':' :: rest =>
    let (negated, rest) := match rest with
      | '^' :: rest => (true, rest)
      | rest => (false, rest)
    match rest.dropWhile (· ≠ ':') with
    | ':' :: ']' :: left =>
      (classOfName? (String.ofList (rest.takeWhile (· ≠ ':')))).map fun s ↦ ((s, negated), left)
    | _ => none
  | _ => none

/-! ## Unions and operators -/

/-- The parts of a union that were read, with their number and the greatest depth of one. -/
structure ClassUnion where
  set : CharSet
  count : Nat
  depth : Nat

namespace ClassUnion

/-- The union of no parts. -/
def none : ClassUnion := ⟨.empty, 0, 0⟩

/-- A union with one more part. -/
def push (u : ClassUnion) (s : CharSet) (depth : Nat) : ClassUnion :=
  ⟨s.union u.set, u.count + 1, max u.depth depth⟩

/-- The depth of a union: several parts are one level deeper than one. -/
def depthAsPart (u : ClassUnion) : Nat := if u.count ≤ 1 then u.depth else u.depth + 1

end ClassUnion

/-- The operators between unions. -/
inductive ClassOperator where
  | inter
  | diff
  | symmDiff

/-- What an operator makes of two sets. -/
def ClassOperator.apply (op : ClassOperator) (s t : CharSet) : CharSet :=
  match op with
  | .inter => s.inter t
  | .diff => s.diff t
  | .symmDiff => s.symmDiff t

/-- The operator that a text begins with, and what follows it. -/
def classOperator? : List Char → Option (ClassOperator × List Char)
  | '&' :: '&' :: rest => some (.inter, rest)
  | '-' :: '-' :: rest => some (.diff, rest)
  | '~' :: '~' :: rest => some (.symmDiff, rest)
  | _ => none

/-- What is open around the union that is read. -/
inductive ClassFrame where
  /-- A bracket, inside of what was read of another union. -/
  | bracket (outer : ClassUnion) (negated : Bool)
  /-- An operator after its left side. -/
  | operator (op : ClassOperator) (left : CharSet) (depth : Nat)

/-- A set in brackets that is being read. -/
structure ClassDraft where
  rest : List Char
  union : ClassUnion
  frames : List ClassFrame

/-- The union that was read, combined with the left side of the operator before it. -/
def ClassDraft.combined (o : Options) (d : ClassDraft) :
    Except PatternSyntaxError ((CharSet × Nat) × List ClassFrame) := do
  match d.frames with
  | .operator op left depth :: frames =>
    let left ← o.folded left
    let right ← o.folded d.union.set
    return ((op.apply left.canonical right.canonical, 1 + max depth d.union.depthAsPart), frames)
  | frames => return ((d.union.set, d.union.depthAsPart), frames)

/-! ## Reading -/

/-- The draft of a set in brackets after its opening bracket. A dash or a closing bracket at the
beginning is a part of the set. -/
def openBracket (o : Options) (outer : ClassUnion) (frames : List ClassFrame)
    (text : List Char) : Except PatternSyntaxError ClassDraft :=
  let (negated, rest) := match o.skip text with
    | '^' :: rest => (true, o.skip rest)
    | rest => (false, rest)
  let (dashes, rest) := o.collect (· == '-') false rest
  let frames := .bracket outer negated :: frames
  match dashes, rest with
  | _, [] => .error .unclosedClass
  | [], ']' :: rest => .ok ⟨rest, ClassUnion.none.push (.single ']') 0, frames⟩
  | dashes, rest => .ok ⟨rest, dashes.foldl (fun u c ↦ u.push (.single c) 0) .none, frames⟩

/-- Reads a character or a named set in brackets. -/
def readMember (o : Options) : List Char → Reading Symbol
  | [] => .error .unclosedClass
  | '\\' :: rest => readEscape o rest
  | c :: rest => .ok (.char c false, rest)

/-- The set of a part in brackets. -/
def Symbol.toSet (o : Options) : Symbol → Except PatternSyntaxError CharSet
  | .char c _ => if o.asciiOnly && 0x80 ≤ c.toNat then .error .loneBytes else .ok (.single c)
  | .named set negated => o.named set negated
  | _ => .error .notInClass

/-- The range between two parts in brackets, which have to be characters in order. -/
def rangeBetween (o : Options) (first last : Symbol) : Except PatternSyntaxError CharSet :=
  match first, last with
  | .char a _, .char b _ =>
    if b < a then .error .badRange
    else if o.asciiOnly && 0x80 ≤ b.toNat then .error .loneBytes
    else .ok (.range a b)
  | _, _ => .error .badRange

/-- The character that a dash in brackets is followed by. When blanks do not count, neither does
a number sign between them. -/
def afterDash (o : Options) (text : List Char) : Option Char :=
  if !o.spaced then text.head?
  else
    let next := match text.dropWhile isBlank with
      | '#' :: rest => rest.dropWhile isBlank
      | rest => rest
    match next with
    | [] => text.head?
    | c :: _ => some c

/-- Reads a part in brackets: a range, or one symbol. A dash before a closing bracket or before
another dash makes no range. -/
def readPart (o : Options) (text : List Char) :
    Except PatternSyntaxError (CharSet × List Char) := do
  let (first, rest) ← readMember o text
  match o.skip rest with
  | [] => throw .unclosedClass
  | '-' :: more =>
    if afterDash o more = some ']' ∨ afterDash o more = some '-' then
      return (← first.toSet o, '-' :: more)
    else
      let (last, rest) ← readMember o (o.skip more)
      return (← rangeBetween o first last, rest)
  | rest => return (← first.toSet o, rest)

/-- Takes the next part of a set in brackets. Gives either the draft with it, or the whole set with
its depth and what follows, once the outermost bracket is closed. -/
def ClassDraft.step (o : Options) (d : ClassDraft) :
    Except PatternSyntaxError (ClassDraft ⊕ ((CharSet × Nat) × List Char)) := do
  match o.skip d.rest with
  | [] => throw .unclosedClass
  | '[' :: rest =>
    match namedClass? rest with
    | some ((set, negated), rest) =>
      let set ← o.negated negated (← o.folded set)
      return .inl { d with rest, union := d.union.push set 0 }
    | none => return .inl (← openBracket o d.union d.frames rest)
  | ']' :: rest =>
    let ((set, depth), frames) ← d.combined o
    match frames with
    | .bracket outer negated :: frames =>
      let set ← o.negated negated (← o.folded set)
      if frames.isEmpty then return .inr ((set, depth + 1), rest)
      else return .inl ⟨rest, outer.push set (depth + 1), frames⟩
    | _ => throw .unclosedClass
  | text =>
    match classOperator? text with
    | some (op, rest) =>
      let ((left, depth), frames) ← d.combined o
      return .inl ⟨rest, .none, .operator op left depth :: frames⟩
    | none =>
      let (set, rest) ← readPart o text
      return .inl { d with rest, union := d.union.push set 0 }

/-- Takes parts of a set in brackets until it is closed; every part takes a character. -/
def ClassDraft.finish (o : Options) : Nat → ClassDraft →
    Except PatternSyntaxError ((CharSet × Nat) × List Char)
  | 0, _ => .error .unclosedClass
  | n + 1, d => do
    match ← d.step o with
    | .inl d => finish o n d
    | .inr result => return result

/-- Reads a set in brackets after its opening bracket, with the depth of its brackets. -/
def readClass (o : Options) (text : List Char) :
    Except PatternSyntaxError ((CharSet × Nat) × List Char) := do
  (← openBracket o .none [] text).finish o (text.length + 1)

end Pattern

end FirmwareSeal
