import FirmwareSeal.Store.Error
import FirmwareSeal.Store.Tree

/-!
# Following a path through a tree

A path is text: names separated by slashes, followed from the top directory. A single dot stays
where it is and two dots go back to the directory above. Everything but the last name has to be a
directory; a slash at the end asks for a directory in the last place too. `FileTree.walk` follows
directories and `FileTree.locate` says in which directory and under which name a path ends.
-/

namespace FirmwareSeal

namespace Path

/-- The number of bytes that a path may not reach. -/
def lengthLimit : Nat := 4096

/-- The greatest number of bytes in a name. -/
def nameLimit : Nat := 255

/-- The names in a path. -/
def segments (path : String) : List String :=
  ((path.toList.splitOn '/').filter fun s ↦ !s.isEmpty).map String.ofList

/-- Whether a path asks for a directory by its last character. -/
def endsInSlash (path : String) : Bool := path.toList.getLast? == some '/'

/-- Whether a name in a path leads nowhere: an empty one, or a single dot. -/
def isIdle (name : List Char) : Bool := name.isEmpty || name == ['.']

/-- The path to the directory of a path's last name, as it is written. A dot or a slash at the end
does not count as a name, and the result ends in a name too; it is empty if the last name is the
only one. -/
def directoryText (path : String) : String :=
  let names := (path.toList.splitOn '/').reverse.dropWhile isIdle
  String.ofList (List.intercalate ['/'] ((names.drop 1).dropWhile isIdle).reverse)

/-- The names that lead to the directory of a path's last name. -/
def parent (path : String) : List String :=
  (segments (directoryText path)).filter fun s ↦ s ≠ "."

/-- Refuses a path that no tree is asked about: one with a zero character, an empty one, or one
that is too long. -/
def check (path : String) : Except FileFault Unit :=
  if '\x00' ∈ path.toList then .error .invalidPath
  else if path.isEmpty then .error .notFound
  else if lengthLimit ≤ path.utf8ByteSize then .error .nameTooLong
  else .ok ()

end Path

namespace FileTree

/-- What a directory holds under a name. -/
def child (t : FileTree) (directory : Location) (name : String) :
    Except FileFault (Option Entry) :=
  if Path.nameLimit < name.utf8ByteSize then .error .nameTooLong
  else .ok (t.lookup (directory ++ [name]))

/-- The directory that some names lead to, from a directory. -/
def walk (t : FileTree) (directory : Location) : List String → Except FileFault Location
  | [] => .ok directory
  | name :: rest =>
    if name = "." then walk t directory rest
    else if name = ".." then walk t directory.dropLast rest
    else
      match t.child directory name with
      | .error fault => .error fault
      | .ok none => .error .notFound
      | .ok (some (.file _)) => .error .notADirectory
      | .ok (some .directory) => walk t (directory ++ [name]) rest

/-- The directory that a path ends in and its last name there; no name if the path ends in a dot,
in two dots or at the top. -/
def locate (t : FileTree) (path : String) : Except FileFault (Location × Option String) := do
  Path.check path
  match (Path.segments path).getLast? with
  | none => return ([], none)
  | some last =>
    let directory ← t.walk [] (Path.segments path).dropLast
    return (directory, if last = "." ∨ last = ".." then none else some last)

end FileTree

end FirmwareSeal
