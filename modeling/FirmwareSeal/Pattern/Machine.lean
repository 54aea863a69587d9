import FirmwareSeal.Pattern.ByteRanges
import FirmwareSeal.Pattern.Normal
import Std.Data.HashMap

/-!
# How large a matching machine is

A pattern is searched for by a machine: a table of states, each of which waits for a byte in a
range, or for nothing, and then leads on. The machine itself is not needed here, but whether a
pattern is accepted depends on its size. So what is kept of a machine is how many states it has and
how many bytes their lists take, and a pattern is turned into what it adds to both. Repetitions
are written out. States for sets are shared when they lead to the same states, as far as tables of
fixed size remember them; that depends on the numbers of states, so no copy stands for another.
-/

namespace FirmwareSeal

/-- A machine that is being made. -/
structure Machine where
  /-- The number of states. -/
  states : Nat
  /-- The number of bytes in the lists of the states. -/
  listed : Nat
  deriving DecidableEq

/-- The part of a machine for a pattern, at the end of the machine. -/
structure Fragment where
  machine : Machine
  /-- Whether it ends in a fork, which lists every state that it leads to. -/
  endsInFork : Bool
  deriving DecidableEq

namespace Machine

/-! ## Size -/

/-- The number of bytes that a machine takes: 32 for a state, and what is in the lists. -/
def size (m : Machine) : Nat := 32 * m.states + m.listed

/-- The greatest size of a machine that is accepted. -/
def sizeLimit : Nat := 10485760

/-- Whether a machine is not accepted. -/
def isTooLarge (m : Machine) : Bool := sizeLimit < m.size

/-- A machine with some more states, and some more bytes in lists. -/
def add (m : Machine) (states listed : Nat) : Machine := ⟨m.states + states, m.listed + listed⟩

/-- The number of bytes that a fork takes for each state that it leads to. -/
def linkSize : Nat := 4

/-- The number of bytes that a state for several ranges takes for each of them. -/
def rangeSize : Nat := 8

/-! ## Sets

Three kinds of machines recognise a character of a set: a single state for ASCII, a tree of byte
ranges for machines that read forwards, and rows with common ends for those that read backwards. -/

/-- The place of some numbers in a table with so many places. -/
def slot (places : Nat) (numbers : List UInt64) : Nat :=
  (numbers.foldl (fun h n ↦ (h ^^^ n) * 1099511628211) 14695981039346656037).toNat % places

/-- A machine, and the states that a table remembers: at each place what the latest state there
waits for, and its number. -/
structure Sharing (α : Type) where
  machine : Machine
  table : Std.HashMap Nat (α × Nat)

/-- The number of a state that waits for something. It is added, with what its list takes, unless
it is remembered at its place. -/
def Sharing.state {α : Type} [DecidableEq α] (b : Sharing α) (place : Nat) (waitsFor : α)
    (listed : Nat) : Sharing α × Nat :=
  let added := (⟨b.machine.add 1 listed, b.table.insert place (waitsFor, b.machine.states)⟩,
    b.machine.states)
  match b.table[place]? with
  | some (known, state) => if known = waitsFor then (b, state) else added
  | none => added

/-- Ranges of bytes, each with the number of the state it leads to. -/
abbrev Exits := List (CharSet.ByteRange × Nat)

/-- Adds a row to others that come after it, by their first ranges: neighbouring rows with the same
first range are kept together. -/
def gatherRow (row : List CharSet.ByteRange)
    (rows : List (CharSet.ByteRange × List (List CharSet.ByteRange))) :
    List (CharSet.ByteRange × List (List CharSet.ByteRange)) :=
  match row, rows with
  | [], rows => rows
  | first :: rest, (next, others) :: more =>
    if first = next then (first, (rest :: others)) :: more
    else (first, [rest]) :: (next, others) :: more
  | first :: rest, [] => [(first, [rest])]

/-- Adds the tree of some rows, all of which lead to one state in the end. Gives its root. -/
def addTree (target : Nat) : Nat → List (List CharSet.ByteRange) → Sharing Exits →
    Sharing Exits × Nat
  | 0, _, b => (b, target)
  | depth + 1, rows, b =>
    if rows.all (·.isEmpty) then (b, target)
    else
      let (b, exits) := (rows.foldr gatherRow []).foldl
        (fun (b, exits) (first, rests) ↦
          let (b, state) := addTree target depth rests b
          (b, (first, state) :: exits))
        (b, [])
      let exits := exits.reverse
      let place := slot 10000 (exits.flatMap fun ((first, last), state) ↦
        [first.toUInt64, last.toUInt64, state.toUInt64])
      b.state place exits (rangeSize * exits.length)

/-- Adds the states of a row, from its first range on, each of which leads to the state before.
Gives the last one. -/
def addRow (row : List CharSet.ByteRange) (target : Nat) (b : Sharing (Nat × CharSet.ByteRange)) :
    Sharing (Nat × CharSet.ByteRange) × Nat :=
  row.foldl
    (fun (b, target) (first, last) ↦
      let place := slot 1000 [target.toUInt64, first.toUInt64, last.toUInt64]
      b.state place (target, first, last) 0)
    (b, target)

/-- A machine with the states for one character of a set. -/
def addSet (backwards : Bool) (set : CharSet) (m : Machine) : Machine :=
  if set.isAscii then m.add 2 (rangeSize * set.ranges.length)
  else
    let rows := set.byteRows
    if backwards then
      let b := rows.foldl (fun b row ↦ (addRow row (m.states + 1) b).1) ⟨m.add 2 0, ∅⟩
      b.machine.add 0 (linkSize * rows.length)
    else (addTree m.states 4 rows ⟨m.add 1 0, ∅⟩).1.machine

/-! ## Choices between literals -/

/-- Adds a word to others, by their first bytes. -/
def gatherWord (word : List UInt8) (words : List (UInt8 × List (List UInt8))) :
    List (UInt8 × List (List UInt8)) :=
  match word with
  | [] => words
  | first :: rest =>
    let put := words.map fun (b, rests) ↦ if b = first then (b, rest :: rests) else (b, rests)
    if words.any fun (b, _) ↦ b = first then put else (first, [rest]) :: words

/-- The words that remain behind a common beginning, in groups that the end of a word separates.
The first end of a word counts once if no other word comes before it. -/
def wordGroups (words : List (List UInt8)) : List (List (List UInt8)) :=
  let later := words.dropWhile (·.isEmpty)
  (if later.length < words.length then [[]] else []) ++ later.splitOnP (·.isEmpty)

/-- Adds the states for the words behind a common beginning: a fork, and for each group a state for
its first bytes. Gives the words behind each longer beginning. -/
def addWordState (m : Machine) (words : List (List UInt8)) :
    Machine × List (List (List UInt8)) :=
  let groups := (wordGroups words).map fun group ↦ group.foldr gatherWord []
  let full := groups.filter fun group ↦ !group.isEmpty
  let ranges := full.foldl (fun n group ↦ if group.length = 1 then n else n + group.length) 0
  let links := groups.length - 1 + full.length
  (m.add (1 + full.length) (linkSize * links + rangeSize * ranges),
    full.flatMap fun group ↦
      (group.map (·.2)).filter fun rests ↦ !rests.all (·.isEmpty))

/-- Adds the states for the words behind some beginnings, and for those behind longer ones. -/
def addWordStates : Nat → List (List (List UInt8)) → Machine → Machine
  | 0, _, m => m
  | depth + 1, level, m =>
    if level.isEmpty then m
    else
      let (m, next) := level.foldl
        (fun (m, next) words ↦
          let (m, longer) := addWordState m words
          (m, longer ++ next))
        (m, [])
      addWordStates depth next m

/-- A machine with the states for a choice between some words. -/
def addWords (words : List (List UInt8)) (m : Machine) : Machine :=
  addWordStates (words.foldl (fun n word ↦ max n word.length) 0 + 1) [words] (m.add 1 0)

end Machine

namespace Fragment

/-! ## Fragments -/

/-- The machine with a fragment that leads on. -/
def linked (f : Fragment) : Machine :=
  if f.endsInFork then f.machine.add 0 Machine.linkSize else f.machine

/-- Takes a step a number of times, but no more of them with a machine that is too large. -/
def again (step : Fragment → Fragment) : Nat → Fragment → Fragment
  | 0, f => f
  | n + 1, f => if f.machine.isTooLarge then f else again step n (step f)

/-- The fragment of a body a number of times. -/
def exactly (body : Machine → Fragment) : Nat → Machine → Fragment
  | 0, m => ⟨m.add 1 0, false⟩
  | n + 1, m => again (fun f ↦ body f.linked) n (body m)

/-- The fragment of a body that is repeated. A loop needs one fork if the body takes a character
in any case, and otherwise two. -/
def repetition (body : Machine → Fragment) (takesCharacter : Bool) (least : Nat)
    (most : Option Nat) (m : Machine) : Fragment :=
  match least, most with
  | 0, some 1 => ⟨(body (m.add 1 0)).linked.add 1 (2 * Machine.linkSize), false⟩
  | 0, none =>
    if takesCharacter then ⟨(body (m.add 1 0)).linked.add 0 Machine.linkSize, true⟩
    else ⟨(body m).linked.add 3 (4 * Machine.linkSize), false⟩
  | least, none => ⟨(exactly body least m).linked.add 1 Machine.linkSize, true⟩
  | least, some most =>
    let start := exactly body least m
    if least = most then start
    else
      let optional (f : Fragment) : Fragment := body (f.linked.add 1 (2 * Machine.linkSize))
      ⟨(again optional (most - least) ⟨start.machine.add 1 0, start.endsInFork⟩).linked, false⟩

end Fragment

/-- The role of a pattern among others. -/
inductive Role where
  /-- It is no branch of a choice, or the first one. -/
  | whole
  /-- It is the second branch of a choice, or a choice from the second branch on; the first branch
  may end in a fork. -/
  | second (afterFork : Bool)
  /-- It is a later branch of a choice, or a choice from there on. -/
  | later

/-- The fragment of a branch and those before it. Their common fork and end are made behind the
second branch. -/
def Role.close (role : Role) (f : Fragment) : Fragment :=
  match role with
  | .whole => f
  | .second afterFork =>
    ⟨f.linked.add 2 (2 * Machine.linkSize + if afterFork then Machine.linkSize else 0), false⟩
  | .later => ⟨f.linked.add 0 Machine.linkSize, false⟩

namespace Pattern

/-! ## Patterns -/

/-- The characters of a literal. -/
def asLiteral? : Pattern → Option (List Char)
  | .literal text => some text
  | _ => none

/-- The bytes of some characters, in the order in which a machine reads them. -/
def readBytes (backwards : Bool) (text : List Char) : List UInt8 :=
  text.flatMap fun c ↦
    if backwards then (String.utf8EncodeChar c).reverse else String.utf8EncodeChar c

/-- The fragment that a pattern adds to a machine. The pieces of groups are remembered by machines
that read forwards only. -/
def fragment (backwards : Bool) : Pattern → Role → Machine → Fragment
  | .empty, role, m | .anchor _, role, m => role.close ⟨m.add 1 0, false⟩
  | .literal text, role, m => role.close ⟨m.add (readBytes backwards text).length 0, false⟩
  | .chars set _, role, m => role.close ⟨m.addSet backwards set, false⟩
  | .seq p q, role, m =>
    let m := (fragment backwards p .whole m).linked
    match role with
    | .whole => fragment backwards q .whole m
    | role => role.close (fragment backwards q .whole m)
  | .either p q, .whole, m =>
    match (Pattern.either p q).branches.mapM asLiteral? with
    | some texts => ⟨m.addWords (texts.map (readBytes backwards)), false⟩
    | none =>
      let f := fragment backwards p .whole m
      fragment backwards q (.second f.endsInFork) f.machine
  | .either p q, role, m =>
    fragment backwards q .later (role.close (fragment backwards p .whole m)).machine
  | .times p least most _, role, m =>
    role.close (.repetition (fragment backwards p .whole) (p.needsCharacter && !p.hasEmptySet)
      least most m)
  | .group _ p, role, m =>
    if backwards then role.close (fragment backwards p .whole m)
    else role.close ⟨(fragment backwards p .whole (m.add 1 0)).linked.add 1 0, false⟩

/-- The machine of a pattern. Before the pattern, which is a group of its own, it skips any bytes
with a loop, unless the pattern begins at the start of the text. -/
def machine (backwards : Bool) (p : Pattern) : Machine :=
  let start : Machine :=
    if p.beginsAtStart then ⟨1, 0⟩ else ⟨3, 2 * Machine.linkSize + Machine.rangeSize⟩
  (fragment backwards (.group 0 p) .whole start).linked.add 1 0

/-- What an anchor is for a machine that reads backwards. -/
def mirroredAnchor : Anchor → Anchor
  | .textStart => .textEnd
  | .textEnd => .textStart
  | .lineStart anyBreak => .lineEnd anyBreak
  | .lineEnd anyBreak => .lineStart anyBreak
  | .word .start asciiOnly => .word .finish asciiOnly
  | .word .finish asciiOnly => .word .start asciiOnly
  | .word .notAfterWord asciiOnly => .word .notBeforeWord asciiOnly
  | .word .notBeforeWord asciiOnly => .word .notAfterWord asciiOnly
  | .word edge asciiOnly => .word edge asciiOnly

/-- A pattern in front of what may follow it. -/
def followedBy (p : Pattern) : Option Pattern → Pattern
  | none => p
  | some q => .seq p q

/-- The pattern that a machine that reads backwards meets, in front of what may follow it. -/
def mirroredBefore : Pattern → Option Pattern → Pattern
  | .empty, after => followedBy .empty after
  | .literal text, after => followedBy (.literal text.reverse) after
  | .chars set asciiOnly, after => followedBy (.chars set asciiOnly) after
  | .anchor a, after => followedBy (.anchor (mirroredAnchor a)) after
  | .seq p q, after => mirroredBefore q (some (mirroredBefore p after))
  | .either p q, after => followedBy (.either (mirroredBefore p none) (mirroredBefore q none)) after
  | .times p least most greedy, after =>
    followedBy (.times (mirroredBefore p none) least most greedy) after
  | .group number p, after => followedBy (.group number (mirroredBefore p none)) after

/-- The pattern that a machine that reads backwards meets. -/
def mirrored (p : Pattern) : Pattern := mirroredBefore p none

end Pattern

end FirmwareSeal
