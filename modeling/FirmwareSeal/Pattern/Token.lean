import FirmwareSeal.Pattern.Basic
import FirmwareSeal.Pattern.Error
import FirmwareSeal.Text.Blank

/-!
# The small parts of written patterns

A written pattern is read under options, which decide among other things whether blanks and
comments between its parts count. The parts read here are numbers, counts and what a backslash
begins; each reader gives back what is left of the text.
-/

namespace FirmwareSeal

namespace Pattern

/-- The result of reading a part of a pattern. -/
abbrev Reading (α : Type) := Except PatternSyntaxError (α × List Char)

/-- How a part of a pattern is understood. -/
structure Options where
  /-- Both cases of a letter are the same. -/
  caseless : Bool
  /-- The beginnings and ends of lines are anchors too. -/
  lines : Bool
  /-- A point is any character. -/
  pointIsAll : Bool
  /-- A carriage return also ends a line. -/
  anyBreak : Bool
  /-- Sets, words and cases are those of ASCII. -/
  asciiOnly : Bool
  /-- Blanks and comments do not count. -/
  spaced : Bool
  /-- A repetition is greedy only if it is marked. -/
  lazyFirst : Bool
  deriving DecidableEq

/-- How a pattern is understood when nothing is said about it. -/
def Options.standard : Options := ⟨false, false, false, false, false, false, false⟩

/-- What follows some blanks and comments; a comment goes from a number sign to the end of its
line. -/
def skipSpace (inComment : Bool) : List Char → List Char
  | [] => []
  | c :: rest =>
    if inComment then skipSpace (c != '\n') rest
    else if isBlank c then skipSpace false rest
    else if c = '#' then skipSpace true rest
    else c :: rest

/-- The text from its next part on. -/
def Options.skip (o : Options) (text : List Char) : List Char :=
  if o.spaced then skipSpace false text else text

/-- The characters of a kind that a text begins with, and what follows them. Between two of them
there may be what does not count. -/
def Options.collect (o : Options) (kind : Char → Bool) (inComment : Bool) :
    List Char → List Char × List Char
  | [] => ([], [])
  | c :: rest =>
    if inComment then o.collect kind (c != '\n') rest
    else if kind c then
      let (more, left) := o.collect kind false rest
      (c :: more, left)
    else if o.spaced && isBlank c then o.collect kind false rest
    else if o.spaced && c == '#' then o.collect kind true rest
    else ([], c :: rest)

/-! ## Counts -/

/-- The greatest count. -/
def countLimit : Nat := 4294967295

/-- A number in decimal digits. -/
def decimalValue (digits : List Char) : Nat :=
  digits.foldl (fun n c ↦ 10 * n + (c.toNat - '0'.toNat)) 0

/-- Reads a number; blanks around it never count. -/
def readDecimal (o : Options) (text : List Char) : Reading Nat :=
  let (digits, rest) := o.collect Char.isDigit false (text.dropWhile isBlank)
  if digits.isEmpty then .error .badCount
  else if countLimit < decimalValue digits then .error .badCount
  else .ok (decimalValue digits, rest.dropWhile isBlank)

/-- Reads how often something is repeated, after the opening brace: a count, a count and a comma,
or two counts. -/
def readCounts (o : Options) (text : List Char) :
    Except PatternSyntaxError ((Nat × Option Nat) × List Char) := do
  let (least, rest) ← readDecimal o (o.skip text)
  match rest with
  | '\x7d' :: rest => return ((least, some least), rest)
  | ',' :: rest =>
    match o.skip rest with
    | '\x7d' :: rest => return ((least, none), rest)
    | rest =>
      let (most, rest) ← readDecimal o rest
      match rest with
      | '\x7d' :: rest =>
        if least ≤ most then return ((least, some most), rest) else throw .badCount
      | _ => throw .badCount
  | _ => throw .badCount

/-! ## Characters by number -/

/-- Whether a character is a hexadecimal digit. -/
def isHexDigit (c : Char) : Bool :=
  c.isDigit || ('a' ≤ c && c ≤ 'f') || ('A' ≤ c && c ≤ 'F')

/-- The value of a hexadecimal digit. -/
def hexDigitValue (c : Char) : Nat :=
  if c.isDigit then c.toNat - '0'.toNat
  else if 'a' ≤ c then c.toNat - 'a'.toNat + 10
  else c.toNat - 'A'.toNat + 10

/-- The character with a number in hexadecimal digits. -/
def charOfHex? (digits : List Char) : Option Char :=
  let n := digits.foldl (fun n c ↦ 16 * n + hexDigitValue c) 0
  if n.isValidChar then some (Char.ofNat n) else none

/-- Exactly so many hexadecimal digits and what follows them. -/
def hexDigits? (o : Options) : Nat → List Char → Option (List Char × List Char)
  | 0, text => some ([], text)
  | _ + 1, [] => none
  | n + 1, c :: rest =>
    if isHexDigit c then (hexDigits? o n (o.skip rest)).map fun r ↦ (c :: r.1, r.2) else none

/-- Reads the number of a character: in braces, or in so many digits. -/
def readHex (o : Options) (count : Nat) (text : List Char) : Reading Char :=
  match o.skip text with
  | '\x7b' :: rest =>
    match o.collect isHexDigit false (o.skip rest) with
    | (digits, '\x7d' :: rest) =>
      if digits.isEmpty then .error .badNumber
      else
        match charOfHex? digits with
        | some c => .ok (c, o.skip rest)
        | none => .error .badNumber
    | _ => .error .badNumber
  | rest =>
    match hexDigits? o count rest with
    | none => .error .badNumber
    | some (digits, rest) =>
      match charOfHex? digits with
      | some c => .ok (c, rest)
      | none => .error .badNumber

/-! ## Symbols -/

/-- What a character of a pattern, or a backslash and what follows it, stands for. -/
inductive Symbol where
  /-- A character; it may be written as the number of a byte. -/
  | char (c : Char) (isByte : Bool)
  /-- A point. -/
  | point
  /-- A named set of characters, or what is not in it. -/
  | named (set : CharSet) (negated : Bool)
  /-- A condition on a place. -/
  | anchor (a : Anchor)
  deriving DecidableEq

/-- The digits. -/
def digitSet : CharSet := .range '0' '9'

/-- The blanks of plain text. -/
def spaceSet : CharSet := ⟨[(9, 13), (0x20, 0x20)]⟩

/-- The word edge of a name. -/
def wordEdgeOfName? : String → Option WordEdge
  | "start" => some .start
  | "end" => some .finish
  | "start-half" => some .notAfterWord
  | "end-half" => some .notBeforeWord
  | _ => none

/-- Reads the name that may stand in braces after a word edge. What does not begin as a name is
left there: it is a count. -/
def readWordEdge (o : Options) (text : List Char) : Reading WordEdge :=
  match text with
  | '\x7b' :: rest =>
    let isNameChar (c : Char) : Bool := c.isAlpha || c == '-'
    match o.skip rest with
    | [] => .error .badWordEdge
    | c :: rest =>
      if isNameChar c then
        match o.collect isNameChar false (c :: rest) with
        | (name, '\x7d' :: rest) =>
          match wordEdgeOfName? (String.ofList name) with
          | some edge => .ok (edge, rest)
          | none => .error .badWordEdge
        | _ => .error .badWordEdge
      else .ok (.boundary, text)
  | _ => .ok (.boundary, text)

/-- Whether a character after a backslash stands for itself. -/
def standsForItself (c : Char) : Bool :=
  c.toNat < 0x80 && !c.isAlphanum && c != '<' && c != '>'

/-- Reads what follows a backslash. -/
def readEscape (o : Options) : List Char → Reading Symbol
  | [] => .error .badEscape
  | c :: rest =>
    match c with
    | 'x' => (readHex o 2 rest).map fun r ↦ (.char r.1 ((o.skip rest).head? != some '\x7b'), r.2)
    | 'u' => (readHex o 4 rest).map fun r ↦ (.char r.1 false, r.2)
    | 'U' => (readHex o 8 rest).map fun r ↦ (.char r.1 false, r.2)
    | 'p' | 'P' => .error .noTables
    | 'd' => .ok (.named digitSet false, rest)
    | 'D' => .ok (.named digitSet true, rest)
    | 's' => .ok (.named spaceSet false, rest)
    | 'S' => .ok (.named spaceSet true, rest)
    | 'w' => .ok (.named wordSet false, rest)
    | 'W' => .ok (.named wordSet true, rest)
    | 'a' => .ok (.char '\x07' false, rest)
    | 'f' => .ok (.char '\x0c' false, rest)
    | 't' => .ok (.char '\t' false, rest)
    | 'n' => .ok (.char '\n' false, rest)
    | 'r' => .ok (.char '\r' false, rest)
    | 'v' => .ok (.char '\x0b' false, rest)
    | 'A' => .ok (.anchor .textStart, rest)
    | 'z' => .ok (.anchor .textEnd, rest)
    | 'b' => (readWordEdge o rest).map fun r ↦ (.anchor (.word r.1 o.asciiOnly), r.2)
    | 'B' => .ok (.anchor (.word .elsewhere o.asciiOnly), rest)
    | '<' => .ok (.anchor (.word .start o.asciiOnly), rest)
    | '>' => .ok (.anchor (.word .finish o.asciiOnly), rest)
    | c =>
      if c.isDigit then .error .backReference
      else if standsForItself c then .ok (.char c false, rest)
      else .error .badEscape

end Pattern

end FirmwareSeal
