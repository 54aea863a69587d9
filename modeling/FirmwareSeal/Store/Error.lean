/-!
# Why a file cannot be read or written

Every failure names its cause and the path as it was given.
-/

namespace FirmwareSeal

/-- What went wrong with a file. -/
inductive FileFault where
  /-- Nothing has that name. -/
  | notFound
  /-- Something used as a directory is a file. -/
  | notADirectory
  /-- Something used as a file is a directory. -/
  | isADirectory
  /-- The name stands for a directory that cannot be replaced. -/
  | busy
  /-- A name or a path is too long. -/
  | nameTooLong
  /-- The path holds a zero character. -/
  | invalidPath
  /-- Every name tried for a new file is taken. -/
  | alreadyExists
  /-- Any other cause, in words. -/
  | other (text : String)
  deriving DecidableEq

/-- A cause in words. -/
def FileFault.text : FileFault → String
  | .notFound => "no such file or directory"
  | .notADirectory => "not a directory"
  | .isADirectory => "is a directory"
  | .busy => "device or resource busy"
  | .nameTooLong => "file name too long"
  | .invalidPath => "the path holds a zero character"
  | .alreadyExists => "file exists"
  | .other text => text

/-- A failed access to a file. -/
structure FileError where
  path : String
  fault : FileFault
  deriving DecidableEq

/-- The message of a file error. -/
def FileError.message (e : FileError) : String :=
  "i/o error on " ++ e.path ++ ": " ++ e.fault.text

end FirmwareSeal
