/-!
# Text without terminal control

A terminal does not show every character: some of them it obeys. An escape character begins a
sequence that moves the cursor, chooses a colour or carries a whole string, and most control
characters do something of their own. `visibleText` is what is left of a text when all of this is
taken out: a walk through the text that remembers how far a sequence has come.

A line break or another blank inside a sequence is obeyed at once and is part of what is left; the
text that follows it is shown too, up to the next control character, where the sequence goes on.
-/

namespace FirmwareSeal

namespace Terminal

/-- How far the head of a sequence has come. -/
inductive Stage where
  | start
  | parameters
  | intermediates
  deriving DecidableEq

/-- What a terminal is in the middle of. -/
inductive Mode where
  /-- Nothing: what comes is shown. -/
  | text
  /-- An escape character was met. -/
  | escape
  /-- A sequence that ends at the next character beyond the punctuation. -/
  | escapeIntermediate
  /-- The head of a control sequence, which ends with it. -/
  | control (stage : Stage)
  /-- A control sequence that makes no sense; it still has an end. -/
  | badControl
  /-- The head of a device string. -/
  | device (stage : Stage)
  /-- A string that ends at the byte `9c` or at an escape character. -/
  | string
  /-- A string that ends at a bell or at an escape character. -/
  | command
  deriving DecidableEq

/-- Where a walk through a text is: in a mode, and perhaps in text that interrupts it. -/
structure State where
  mode : Mode
  interrupted : Bool
  deriving DecidableEq

/-- The beginning of a text. -/
def State.initial : State := ⟨.text, false⟩

/-- Whether a character is a blank that a terminal obeys at once, also inside a sequence. -/
def isImmediate (c : Char) : Bool := c == '\t' || c == '\n' || c == '\x0c' || c == '\r'

/-- Whether a character is shown outside of sequences. -/
def isShown (c : Char) : Bool :=
  (0x20 ≤ c.toNat && c.toNat ≠ 0x7f) || isImmediate c

/-- Whether a character has a number in a range. -/
def isWithin (lo hi : Nat) (c : Char) : Bool := lo ≤ c.toNat && c.toNat ≤ hi

/-- Where the head of a sequence goes at a character: on to a stage, to its regular end, or to a
place where it makes no sense. Other characters leave it where it is. -/
def Stage.next (stage : Stage) (c : Char) (goOn : Stage → Mode) (final bad : Mode) : Mode :=
  if isWithin 0x40 0x7e c then final
  else if isWithin 0x20 0x2f c then goOn .intermediates
  else if isWithin 0x30 0x3f c then
    match stage with
    | .start => goOn .parameters
    | .parameters => if isWithin 0x3c 0x3f c then bad else goOn .parameters
    | .intermediates => bad
  else goOn stage

/-- The mode after a character that neither begins nor breaks off a sequence. -/
def Mode.next (mode : Mode) (c : Char) : Mode :=
  match mode with
  | .text => .text
  | .escape =>
    if isWithin 0x20 0x2f c then .escapeIntermediate
    else if c = '[' then .control .start
    else if c = ']' then .command
    else if c = 'P' then .device .start
    else if c = 'X' ∨ c.toNat = 0x5e ∨ c = '_' then .string
    else if isWithin 0x30 0x7e c then .text
    else .escape
  | .escapeIntermediate => if isWithin 0x30 0x7e c then .text else .escapeIntermediate
  | .control stage => stage.next c .control .text .badControl
  | .badControl => if isWithin 0x40 0x7e c then .text else .badControl
  | .device stage => stage.next c .device .string .string
  | .string => if 0x9c ∈ String.utf8EncodeChar c then .text else .string
  | .command => if c = '\x07' then .text else .command

/-- Whether a mode obeys immediate blanks. -/
def Mode.yields : Mode → Bool
  | .device _ | .string | .command => false
  | _ => true

/-- One character of a walk: where it leads, and whether the character is shown. -/
def State.step (s : State) (c : Char) : State × Bool :=
  if c = '\x1b' then (⟨.escape, false⟩, false)
  else if c = '\x18' ∨ c = '\x1a' then (.initial, false)
  else if s.mode = .text then (.initial, isShown c)
  else if s.interrupted then
    if 0x80 ≤ c.toNat then (.initial, true)
    else (⟨s.mode, isShown c⟩, isShown c)
  else if isImmediate c && s.mode.yields then (⟨s.mode, true⟩, true)
  else (⟨s.mode.next c, false⟩, false)

/-- What is shown of a text from some place on. -/
def shown (s : State) : List Char → List Char
  | [] => []
  | c :: rest =>
    match s.step c with
    | (next, true) => c :: shown next rest
    | (next, false) => shown next rest

end Terminal

/-- What a terminal shows of a text. -/
def visibleText (text : String) : String := String.ofList (Terminal.shown .initial text.toList)

end FirmwareSeal
