import FirmwareSeal.Text.Visible

/-!
# Command-line arguments

A command takes two paths, and options that ask for help or for the version. Arguments are read
from left to right: an option answers as soon as it is met, and so does a fault. An empty path is
a fault too, but it is noticed only when the next argument is taken, or at the end; an argument
that cannot be taken is reported before it.

An argument is text, and so is a path. Arguments whose bytes are not UTF-8, which a machine can pass
too, are left out.
-/

namespace FirmwareSeal

namespace Command

/-- The two paths that a command takes. -/
inductive Slot where
  | input
  | output
  deriving DecidableEq

/-- The name of a path in messages. -/
def Slot.name : Slot → String
  | .input => "<INPUT>"
  | .output => "<OUTPUT>"

/-- What the arguments ask for. -/
inductive Request where
  | help
  | version
  | run (input output : String)
  deriving DecidableEq

/-- Why the arguments ask for nothing that can be done. -/
inductive UsageError where
  | missingPaths
  | unexpectedArgument (argument : String)
  | unexpectedValue (value option : String)
  | emptyPath (slot : Slot)
  deriving DecidableEq

/-- The message of a usage error. It names arguments as a terminal would show them. -/
def UsageError.message : UsageError → String
  | .missingPaths => "error: the following required arguments were not provided:"
  | .unexpectedArgument argument =>
    "error: unexpected argument '" ++ visibleText argument ++ "' found"
  | .unexpectedValue value option =>
    "error: unexpected value '" ++ visibleText value ++ "' for '" ++ visibleText option ++
      "' found; no more were expected"
  | .emptyPath slot =>
    "error: a value is required for '" ++ slot.name ++ "' but none was supplied"

/-- What an argument is by its form. -/
inductive Form where
  /-- Two dashes alone: everything that follows is a path. -/
  | endOfOptions
  /-- Two dashes and a name, perhaps with a value after an equals sign. -/
  | long (name : String) (value : Option String)
  /-- A dash and a letter, perhaps followed by more. -/
  | short (letter : Char)
  /-- Anything else, a dash alone included. -/
  | path
  deriving DecidableEq

/-- The form of an argument. -/
def Form.ofArgument (argument : String) : Form :=
  match argument.toList with
  | ['-', '-'] => .endOfOptions
  | '-' :: '-' :: rest =>
    let name := rest.takeWhile (· ≠ '=')
    match rest.dropWhile (· ≠ '=') with
    | [] => .long (String.ofList name) none
    | _ :: value => .long (String.ofList name) (some (String.ofList value))
  | '-' :: letter :: _ => .short letter
  | _ => .path

/-- The option of a long name. -/
def requestOfName? : String → Option Request
  | "help" => some .help
  | "version" => some .version
  | _ => none

/-- The option of a letter. -/
def requestOfLetter? : Char → Option Request
  | 'h' => some .help
  | 'V' => some .version
  | _ => none

/-- The paths taken so far; each of them but the last is known not to be empty. -/
inductive Taken where
  | nothing
  | one (first : String)
  | both (first second : String)
  deriving DecidableEq

/-- Looks at the path taken last. -/
def Taken.settle : Taken → Except UsageError Unit
  | .nothing => .ok ()
  | .one path => if path.isEmpty then .error (.emptyPath .input) else .ok ()
  | .both _ path => if path.isEmpty then .error (.emptyPath .output) else .ok ()

/-- Takes one more path. -/
def Taken.take (taken : Taken) (path : String) : Except UsageError Taken :=
  match taken with
  | .nothing => .ok (.one path)
  | .one first => taken.settle.map fun _ ↦ .both first path
  | .both _ _ => .error (.unexpectedArgument path)

/-- What is asked for when no argument is left. -/
def Taken.finish (taken : Taken) : Except UsageError Request := do
  taken.settle
  match taken with
  | .both input output => .ok (.run input output)
  | _ => .error .missingPaths

/-- Reads the arguments that follow those already taken as paths. -/
def readArguments (optionsEnded : Bool) (taken : Taken) :
    List String → Except UsageError Request
  | [] => taken.finish
  | argument :: rest =>
    match if optionsEnded then Form.path else Form.ofArgument argument with
    | .endOfOptions => readArguments true taken rest
    | .long name value =>
      match requestOfName? name, value with
      | some request, none => taken.settle.map fun _ ↦ request
      | some _, some v => .error (.unexpectedValue v ("--" ++ name))
      | none, _ => .error (.unexpectedArgument ("--" ++ name))
    | .short letter =>
      match requestOfLetter? letter with
      | some request => taken.settle.map fun _ ↦ request
      | none => .error (.unexpectedArgument (String.ofList ['-', letter]))
    | .path =>
      match taken.take argument with
      | .error e => .error e
      | .ok taken => readArguments optionsEnded taken rest

/-- What a list of arguments asks for. -/
def parseArguments (arguments : List String) : Except UsageError Request :=
  readArguments false .nothing arguments

end Command

end FirmwareSeal
