import FirmwareSeal.Pattern.Reader

/-!
# Which log lines are shown

A line has a level and comes from a named part of the program. A filter is written as a comma list
of directives: a level for everything, a name for everything of the parts whose names start with
it, or a name and a level joined by an equals sign. The directive with the longest name that fits
decides; a part that no directive fits shows nothing. After a slash the filter may have a pattern,
which has to occur in the messages of the lines that are shown. What of a filter makes no sense is
left out and complained about.
-/

namespace FirmwareSeal

namespace Log

/-- How important a line is. -/
inductive Level where
  | error
  | warn
  | info
  | debug
  | trace
  deriving DecidableEq

/-- The place of a level among the levels, the most important first. -/
def Level.rank : Level → Nat
  | .error => 1
  | .warn => 2
  | .info => 3
  | .debug => 4
  | .trace => 5

/-- The name of a level, filled up to five letters. -/
def Level.label : Level → String
  | .error => "ERROR"
  | .warn => "WARN "
  | .info => "INFO "
  | .debug => "DEBUG"
  | .trace => "TRACE"

/-- What is shown of the parts whose names start with some letters, or of all parts: lines up to a
level, or nothing. -/
structure Directive where
  target : Option (List Char)
  limit : Option Level
  deriving DecidableEq

/-- Which lines are shown: those that the directives, in the order in which their names were first
written, and the pattern let through. -/
structure Filter where
  directives : List Directive
  pattern : Option Pattern
  deriving DecidableEq

/-- What makes no sense in the text of a filter. -/
inductive FilterError where
  | badDirective (word : String)
  | manySlashes (text : String)
  | badPattern (e : PatternError)
  deriving DecidableEq

/-- The message of a filter error. -/
def FilterError.message : FilterError → String
  | .badDirective word => "invalid logging spec '" ++ word ++ "'"
  | .manySlashes text => "invalid logging spec '" ++ text ++ "' (too many '/'s)"
  | .badPattern e => "invalid regex filter - " ++ e.message

/-- The complaint about a filter error. -/
def FilterError.warning (e : FilterError) : String := "warning: " ++ e.message ++ ", ignoring it"

/-- The level that a word names in either case of letters, `off` for none. -/
def limitOfWord? (word : List Char) : Option (Option Level) :=
  match String.ofList (word.map Char.toLower) with
  | "off" => some none
  | "error" => some (some .error)
  | "warn" => some (some .warn)
  | "info" => some (some .info)
  | "debug" => some (some .debug)
  | "trace" => some (some .trace)
  | _ => none

/-- The directive that a word stands for. What is wrong with a level is the level alone. -/
def Directive.ofWord (word : List Char) : Except FilterError Directive :=
  match word.splitOn '=' with
  | [single] =>
    match limitOfWord? single with
    | some limit => .ok ⟨none, limit⟩
    | none => .ok ⟨some single, some .trace⟩
  | [target, limit] =>
    let limit := trimBlanks limit
    if limit.isEmpty then .ok ⟨some target, some .trace⟩
    else
      match limitOfWord? limit with
      | some l => .ok ⟨some target, l⟩
      | none => .error (.badDirective (String.ofList limit))
  | _ => .error (.badDirective (String.ofList word))

namespace Filter

/-! ## Reading -/

/-- Some directives with one more. It takes the place of one with the same name. -/
def insert (directives : List Directive) (d : Directive) : List Directive :=
  if directives.any fun e ↦ e.target = d.target then
    directives.map fun e ↦ if e.target = d.target then d else e
  else
    directives ++ [d]

/-- The words of a comma list, without the empty ones. -/
def words (list : List Char) : List (List Char) :=
  ((list.splitOn ',').map trimBlanks).filter fun w ↦ !w.isEmpty

/-- The directives that some words stand for, and what is wrong with the other words. -/
def readWords : List (List Char) → List Directive × List FilterError
  | [] => ([], [])
  | word :: rest =>
    let (directives, errors) := readWords rest
    match Directive.ofWord word with
    | .ok d => (d :: directives, errors)
    | .error e => (directives, e :: errors)

/-- The filter of some directives and a pattern. Without any directive only errors are shown. -/
def ofDirectives (directives : List Directive) (pattern : Option Pattern) : Filter :=
  match directives with
  | [] => ⟨[⟨none, some .error⟩], pattern⟩
  | directives => ⟨directives.foldl insert [], pattern⟩

/-- The filter that a text describes, and what makes no sense in it. -/
def ofText (text : String) : Filter × List FilterError :=
  match text.toList.splitOn '/' with
  | [list] =>
    let (directives, errors) := readWords (words list)
    (ofDirectives directives none, errors)
  | [list, pattern] =>
    let (directives, errors) := readWords (words list)
    match Pattern.ofText (String.ofList pattern) with
    | .ok p => (ofDirectives directives (some p), errors)
    | .error e => (ofDirectives directives none, errors ++ [.badPattern e])
  | _ => (ofDirectives [] none, [.manySlashes text])

/-- What is shown where nothing else is asked for. -/
def standard : Filter := ⟨[⟨none, some .info⟩], none⟩

/-! ## Deciding -/

/-- The number of letters in the name of a directive; it is zero for all parts. -/
def nameLength (d : Directive) : Nat := (d.target.getD []).length

/-- Whether a directive is about a part of the program. -/
def concerns (d : Directive) (target : String) : Bool :=
  d.target.all fun letters ↦ letters.isPrefixOf target.toList

/-- Of two directives the one with the longer name, and the second if neither is longer. -/
def prefer (best : Option Directive) (next : Directive) : Option Directive :=
  match best with
  | none => some next
  | some d => if nameLength next < nameLength d then some d else some next

/-- The directive that decides about a part of the program. -/
def deciding? (filter : Filter) (target : String) : Option Directive :=
  (filter.directives.filter fun d ↦ concerns d target).foldl prefer none

/-- Whether a line of a level from a part of the program is shown. -/
def shows (filter : Filter) (level : Level) (target message : String) : Bool :=
  match filter.deciding? target with
  | some ⟨_, some limit⟩ =>
    level.rank ≤ limit.rank && filter.pattern.all fun p ↦ p.occursIn message
  | _ => false

end Filter

end Log

end FirmwareSeal
