/-!
# Why a text is no pattern

A text may break the rules of patterns, or stand for a pattern that cannot be used.
-/

namespace FirmwareSeal

/-- How a text breaks the rules of patterns. -/
inductive PatternSyntaxError where
  | unclosedGroup
  | unopenedGroup
  | lookAround
  | badGroupName
  | repeatedGroupName
  | badFlags
  | nothingToRepeat
  | badCount
  | unclosedClass
  | badRange
  | notInClass
  | badEscape
  | backReference
  | badNumber
  | badWordEdge
  /-- The text asks for properties of characters beyond ASCII. -/
  | noTables
  /-- The text asks for bytes that are no part of any text. -/
  | loneBytes
  | tooNested
  deriving DecidableEq

/-- Why a text stands for no pattern. -/
inductive PatternError where
  | malformed (text : String) (cause : PatternSyntaxError)
  | tooLarge (limit : Nat)
  /-- The text asks for words beyond ASCII. -/
  | noWordTable
  deriving DecidableEq

/-- A rule that a text breaks, in words. -/
def PatternSyntaxError.reason : PatternSyntaxError → String
  | .unclosedGroup => "unclosed group"
  | .unopenedGroup => "unopened group"
  | .lookAround => "look-around is not supported"
  | .badGroupName => "invalid capture group name"
  | .repeatedGroupName => "duplicate capture group name"
  | .badFlags => "invalid flags"
  | .nothingToRepeat => "repetition operator missing expression"
  | .badCount => "invalid repetition count"
  | .unclosedClass => "unclosed character class"
  | .badRange => "invalid character class range"
  | .notInClass => "invalid escape sequence found in character class"
  | .badEscape => "unrecognized escape sequence"
  | .backReference => "backreferences are not supported"
  | .badNumber => "invalid hexadecimal number"
  | .badWordEdge => "invalid word boundary assertion"
  | .noTables => "properties of characters beyond ASCII are not available"
  | .loneBytes => "pattern can match invalid UTF-8"
  | .tooNested => "exceeded the maximum number of nested parentheses and brackets"

/-- The message of a pattern error. -/
def PatternError.message : PatternError → String
  | .malformed text cause => "regex parse error:\n    " ++ text ++ "\nerror: " ++ cause.reason
  | .tooLarge limit => "Compiled regex exceeds size limit of " ++ toString limit ++ " bytes."
  | .noWordTable => "error building NFA"

end FirmwareSeal
