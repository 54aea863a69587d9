import FirmwareSeal.Pattern.Class
import FirmwareSeal.Pattern.Machine

/-!
# Reading patterns

A pattern is written as parts one after the other, with alternatives between bars, groups in
parentheses and repetitions behind what they repeat. The reader takes one part after the other and
keeps the groups that are still open in a list. `ofText` reads a whole text and refuses patterns
that cannot be used.
-/

namespace FirmwareSeal

namespace Pattern

/-! ## Options and groups -/

/-- The options after some letters, which switch them on, or off behind a dash. -/
def Options.switched (o : Options) (on : Bool) : List Char → Options
  | [] => o
  | '-' :: rest => o.switched false rest
  | 'i' :: rest => { o with caseless := on }.switched on rest
  | 'm' :: rest => { o with lines := on }.switched on rest
  | 's' :: rest => { o with pointIsAll := on }.switched on rest
  | 'R' :: rest => { o with anyBreak := on }.switched on rest
  | 'u' :: rest => { o with asciiOnly := !on }.switched on rest
  | 'x' :: rest => { o with spaced := on }.switched on rest
  | 'U' :: rest => { o with lazyFirst := on }.switched on rest
  | _ :: rest => o.switched on rest

/-- Whether some letters switch options: known letters with at most one dash, no letter twice, and
something behind the dash. -/
def areOptionLetters (letters : List Char) : Bool :=
  letters.all (fun c ↦ ['i', 'm', 's', 'U', 'u', 'R', 'x', '-'].contains c) &&
    decide letters.Nodup && letters.getLast? != some '-'

/-- What an opening parenthesis begins. -/
inductive Opening where
  /-- A group; it may have a name, its piece may be remembered, and it may have options of its
  own. -/
  | group (name : Option String) (isRemembered : Bool) (inside : Options)
  /-- No group: the options of the rest of the group around it. -/
  | switch (after : Options)

/-- Whether a character can be part of a group's name, and can begin one. Letters beyond ASCII are
not told from other characters. -/
def isNameChar (first : Bool) (c : Char) : Bool :=
  c == '_' || c.isAlpha || 0x80 ≤ c.toNat ||
    (!first && (c.isDigit || c == '.' || c == '[' || c == ']'))

/-- Reads the name of a group up to the closing angle. -/
def readGroupName (text : List Char) : Reading String :=
  let name := text.takeWhile (· ≠ '>')
  match text.dropWhile (· ≠ '>') with
  | [] => .error .badGroupName
  | _ :: rest =>
    match name with
    | [] => .error .badGroupName
    | c :: more =>
      if isNameChar true c && more.all (isNameChar false) then .ok (String.ofList name, rest)
      else .error .badGroupName

/-- Reads what follows an opening parenthesis up to the content of the group. -/
def readOpening (o : Options) (text : List Char) : Reading Opening :=
  match o.skip text with
  | '?' :: '=' :: _ | '?' :: '!' :: _ | '?' :: '<' :: '=' :: _ | '?' :: '<' :: '!' :: _ =>
    .error .lookAround
  | '?' :: 'P' :: '<' :: rest | '?' :: '<' :: rest =>
    (readGroupName rest).map fun r ↦ (.group (some r.1) true o, r.2)
  | '?' :: rest =>
    let isEnd (c : Char) : Bool := c == ':' || c == ')'
    let letters := rest.takeWhile fun c ↦ !isEnd c
    let inside := o.switched true letters
    if areOptionLetters letters then
      match rest.dropWhile fun c ↦ !isEnd c with
      | ':' :: rest => .ok (.group none false inside, rest)
      | ')' :: rest =>
        if letters.isEmpty then .error .nothingToRepeat else .ok (.switch inside, rest)
      | _ => .error .badFlags
    else .error .badFlags
  | rest => .ok (.group none true o, rest)

/-! ## Parts -/

/-- A part of a pattern that was read. -/
structure Part where
  pattern : Pattern
  /-- How deep repetitions, groups and unions are nested in it. -/
  depth : Nat
  /-- Whether it can be repeated; a switch of options cannot. -/
  isRepeatable : Bool

namespace Part

/-- A part that has no parts. -/
def leaf (p : Pattern) : Part := ⟨p, 0, true⟩

/-- A part made of some parts; a single part stands for itself. -/
def combine (make : List Pattern → Pattern) (parts : List Part) : Part where
  pattern := make (parts.map pattern)
  depth := parts.foldl (fun d p ↦ max d p.depth) 0 + (if parts.length ≤ 1 then 0 else 1)
  isRepeatable := true

/-- A part in parentheses, with the number of the group if its piece is remembered. -/
def grouped (p : Part) (number : Option Nat) : Part :=
  ⟨number.elim p.pattern fun n ↦ .group n p.pattern, p.depth + 1, true⟩

/-- A repeated part. -/
def repeated (p : Part) (least : Nat) (most : Option Nat) (greedy : Bool) : Part :=
  ⟨p.pattern.repetition least most greedy, p.depth + 1, true⟩

end Part

/-- The pattern of a point. -/
def pointPattern (o : Options) : Except PatternSyntaxError Pattern :=
  if o.asciiOnly then .error .loneBytes
  else if o.pointIsAll then .ok (ofSet false .all)
  else if o.anyBreak then .ok (ofSet false (CharSet.union (.single '\n') (.single '\r')).complement)
  else .ok (ofSet false (CharSet.single '\n').complement)

/-- The pattern of a symbol. -/
def Symbol.toPattern (o : Options) : Symbol → Except PatternSyntaxError Pattern
  | .char c isByte => do
    if o.asciiOnly && isByte && 0x80 ≤ c.toNat then throw .loneBytes
    return ofSet o.asciiOnly (← o.folded (.single c))
  | .point => pointPattern o
  | .named set negated => (o.named set negated).map (ofSet o.asciiOnly)
  | .anchor a => .ok (.anchor a)

/-! ## The reader -/

/-- A group that is open: what was read around it, the options to go back to, and its number if
its piece is remembered. -/
structure OpenGroup where
  parts : List Part
  branches : List Part
  options : Options
  number : Option Nat

/-- A pattern that is being read. The parts of the last alternative, the alternatives before it and
the groups around them are listed from the last to the first. The groups that are remembered have
numbers from one on. -/
structure Draft where
  rest : List Char
  options : Options
  parts : List Part
  branches : List Part
  groups : List OpenGroup
  names : List String
  lastNumber : Nat

namespace Draft

/-- The beginning of a text. -/
def ofText (text : List Char) : Draft := ⟨text, .standard, [], [], [], [], 0⟩

/-- A draft with one more part. -/
def push (d : Draft) (p : Part) (rest : List Char) : Draft :=
  { d with rest, parts := p :: d.parts }

/-- The last alternative as one part. -/
def lastBranch (d : Draft) : Part := .combine concat d.parts.reverse

/-- All alternatives as one part. -/
def content (d : Draft) : Part := .combine alternation (d.lastBranch :: d.branches).reverse

/-- A draft whose last part is repeated. A question mark behind the repetition says that it is as
greedy as others are not. -/
def repeatLast (d : Draft) (least : Nat) (most : Option Nat) (rest : List Char) :
    Except PatternSyntaxError Draft :=
  let (isMarked, rest) := match rest with
    | '?' :: rest => (true, rest)
    | rest => (false, rest)
  match d.parts with
  | [] => .error .nothingToRepeat
  | p :: parts =>
    if p.isRepeatable then
      let greedy := isMarked == d.options.lazyFirst
      .ok { d with rest, parts := p.repeated least most greedy :: parts }
    else .error .nothingToRepeat

/-- A draft after an opening parenthesis. -/
def openGroup (d : Draft) (rest : List Char) : Except PatternSyntaxError Draft := do
  match ← readOpening d.options rest with
  | (.switch options, rest) =>
    let part := { Part.leaf .empty with isRepeatable := false }
    return { d with rest, options, parts := part :: d.parts }
  | (.group name isRemembered options, rest) =>
    if name.any d.names.contains then throw .repeatedGroupName
    let lastNumber := if isRemembered then d.lastNumber + 1 else d.lastNumber
    let number := if isRemembered then some lastNumber else none
    return ⟨rest, options, [], [], ⟨d.parts, d.branches, d.options, number⟩ :: d.groups,
      name.toList ++ d.names, lastNumber⟩

/-- A draft after a closing parenthesis. -/
def closeGroup (d : Draft) (rest : List Char) : Except PatternSyntaxError Draft :=
  match d.groups with
  | [] => .error .unopenedGroup
  | g :: groups =>
    .ok ⟨rest, g.options, d.content.grouped g.number :: g.parts, g.branches, groups, d.names,
      d.lastNumber⟩

/-- Takes the next part of a pattern. -/
def step (d : Draft) : Except PatternSyntaxError Draft := do
  match d.rest with
  | [] => return d
  | '(' :: rest => d.openGroup rest
  | ')' :: rest => d.closeGroup rest
  | '|' :: rest => return { d with rest, parts := [], branches := d.lastBranch :: d.branches }
  | '[' :: rest =>
    let ((set, depth), rest) ← readClass d.options rest
    return d.push { Part.leaf (ofSet d.options.asciiOnly set) with depth } rest
  | '?' :: rest => d.repeatLast 0 (some 1) rest
  | '*' :: rest => d.repeatLast 0 none rest
  | '+' :: rest => d.repeatLast 1 none rest
  | '\x7b' :: rest =>
    let ((least, most), rest) ← readCounts d.options rest
    d.repeatLast least most (d.options.skip rest)
  | '\\' :: rest =>
    let (symbol, rest) ← readEscape d.options rest
    return d.push (.leaf (← symbol.toPattern d.options)) rest
  | '.' :: rest => return d.push (.leaf (← Symbol.point.toPattern d.options)) rest
  | '^' :: rest =>
    let a := if d.options.lines then .lineStart d.options.anyBreak else .textStart
    return d.push (.leaf (.anchor a)) rest
  | '$' :: rest =>
    let a := if d.options.lines then .lineEnd d.options.anyBreak else .textEnd
    return d.push (.leaf (.anchor a)) rest
  | c :: rest => return d.push (.leaf (← (Symbol.char c false).toPattern d.options)) rest

/-- Takes parts until the text ends; every part takes a character. -/
def finish : Nat → Draft → Except PatternSyntaxError Part
  | 0, _ => .error .unclosedGroup
  | n + 1, d =>
    match d.options.skip d.rest with
    | [] => if d.groups.isEmpty then .ok d.content else .error .unclosedGroup
    | rest => do finish n (← { d with rest }.step)

end Draft

/-- The greatest depth of a pattern that is accepted. -/
def depthLimit : Nat := 250

/-- What keeps a pattern from being used. A machine that reads forwards is made first, then the
words it asks for are looked up, and then a machine that reads backwards is made. -/
def obstacle? (p : Pattern) : Option PatternError :=
  if (p.machine false).isTooLarge then some (.tooLarge Machine.sizeLimit)
  else if p.asksForWords then some .noWordTable
  else if (p.mirrored.machine true).isTooLarge then some (.tooLarge Machine.sizeLimit)
  else none

/-- The pattern that a text stands for. -/
def ofText (text : String) : Except PatternError Pattern :=
  match (Draft.ofText text.toList).finish (text.toList.length + 1) with
  | .error cause => .error (.malformed text cause)
  | .ok part =>
    if depthLimit < part.depth then .error (.malformed text .tooNested)
    else
      match part.pattern.obstacle? with
      | some e => .error e
      | none => .ok part.pattern

end Pattern

end FirmwareSeal
