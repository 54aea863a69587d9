import FirmwareSeal.Store.Path

/-!
# Reading files and writing them whole

Reading gives the content of a file. Writing is atomic: the content goes into a new file of a free
name in the directory of the path, and only when it is complete the new file takes the place of
the old one. Any step may fail, for a reason that the tree shows or for another one (`Faults`); the
new file is then erased, so a failed write leaves the tree as it was.
-/

namespace FirmwareSeal

/-- The steps of reading a file, which is one step, and of writing one. -/
inductive FileStep where
  /-- Taking the content of a file. -/
  | load
  /-- Making a new file in the directory of the path. -/
  | create
  /-- Writing the content to the new file. -/
  | fill
  /-- Bringing the content to the medium. -/
  | sync
  /-- Moving the new file to the path. -/
  | rename
  deriving DecidableEq

/-- What goes wrong for reasons that no tree shows, such as a full medium. -/
structure Faults where
  /-- The steps that fail, and why. -/
  cause : FileStep → Option FileFault
  /-- How many bytes are in the new file when giving it its content fails. -/
  reached : Nat

/-- Nothing fails without a reason in the tree. -/
def Faults.none : Faults := ⟨fun _ ↦ Option.none, 0⟩

namespace FileTree

/-- Fails if a step is to fail. -/
def attempt (faults : Faults) (step : FileStep) : Except FileFault Unit :=
  match faults.cause step with
  | none => .ok ()
  | some fault => .error fault

/-- The content of the file that a path leads to. -/
def content (t : FileTree) (path : String) : Except FileFault Bytes := do
  let (directory, name?) ← t.locate path
  match name? with
  | none => throw .isADirectory
  | some name =>
    match ← t.child directory name with
    | none => throw .notFound
    | some .directory => throw .isADirectory
    | some (.file bytes) =>
      if Path.endsInSlash path then throw .notADirectory else return bytes

/-- Reads a file, if the step succeeds. -/
def readUnder (t : FileTree) (faults : Faults) (path : String) : Except FileError Bytes :=
  (attempt faults .load >>= fun _ ↦ t.content path).mapError fun fault ↦ ⟨path, fault⟩

/-- Reads a file, if nothing but the tree is against it. -/
def read (t : FileTree) (path : String) : Except FileError Bytes := t.readUnder .none path

/-! ## Where a new file is made, and where it ends up -/

/-- The names tried for a new file, in order. -/
def temporaryName (i : Nat) : String :=
  let digits := toString i
  ".tmp" ++ String.ofList (List.replicate (6 - digits.length) '0') ++ digits

/-- The first of these names that is neither in a directory nor among some other names. There is
one more candidate than the tree has entries and the list has names. -/
def freshName (t : FileTree) (directory : Location) (avoided : List String) : Option String :=
  ((List.range (t.entries.length + avoided.length + 1)).map temporaryName).find? fun name ↦
    t.lookup (directory ++ [name]) = none ∧ name ∉ avoided

/-- A free location in the directory of a path. It is reached by a path of its own, which must not
be too long, and its name is none of those in the path. -/
def temporaryLocation (t : FileTree) (path : String) : Except FileFault Location := do
  Path.check (Path.directoryText path ++ "/" ++ temporaryName 0)
  let directory ← t.walk [] (Path.parent path)
  match t.freshName directory (Path.segments path) with
  | none => throw .alreadyExists
  | some name => return directory ++ [name]

/-- Where a file renamed to a path ends up. Nothing takes the place of a directory, and a file
cannot have a path that asks for one. -/
def renameTarget (t : FileTree) (path : String) : Except FileFault Location := do
  let (directory, name?) ← t.locate path
  match name? with
  | none => throw .busy
  | some name =>
    let found ← t.child directory name
    if Path.endsInSlash path then throw .notADirectory
    else if found = some .directory then throw .isADirectory
    else return directory ++ [name]

/-- New files are made where nothing is. -/
theorem lookup_temporaryLocation {t : FileTree} {path : String} {l : Location}
    (h : t.temporaryLocation path = .ok l) : t.lookup l = none := by
  unfold temporaryLocation at h
  simp only [bind, Except.bind, pure, Except.pure] at h
  split at h
  · cases h
  · split at h
    · cases h
    · split at h
      · cases h
      · next name hn =>
        cases h
        have hfree := List.find?_some hn
        simp only [decide_eq_true_eq] at hfree
        exact hfree.1

/-! ## Writing -/

/-- Where the new file for a path is made, if the step succeeds. -/
def chooseTemporary (t : FileTree) (faults : Faults) (path : String) :
    Except FileFault Location := do
  attempt faults .create
  t.temporaryLocation path

/-- Where a complete new file is moved to, if the last two steps succeed. -/
def chooseTarget (t : FileTree) (faults : Faults) (path : String) :
    Except FileFault Location := do
  attempt faults .sync
  attempt faults .rename
  t.renameTarget path

/-- Gives a new file its content and moves it to a path. If a step fails, the tree is the one that
the steps before it made, with a part of the content in the new file if that is the step. -/
def completeTemporary (t : FileTree) (faults : Faults) (temporary : Location) (path : String)
    (bytes : Bytes) : Except FileFault Unit × FileTree :=
  match attempt faults .fill with
  | .error fault => (.error fault, t.insert temporary (.file (bytes.take faults.reached)))
  | .ok () =>
    match (t.insert temporary (.file bytes)).chooseTarget faults path with
    | .error fault => (.error fault, t.insert temporary (.file bytes))
    | .ok target =>
      (.ok (), ((t.insert temporary (.file bytes)).erase temporary).insert target (.file bytes))

/-- Writes a file whole or not at all: through a new file, which is erased if it cannot be
completed. -/
def writeAtomic (t : FileTree) (faults : Faults) (path : String) (bytes : Bytes) :
    Except FileError Unit × FileTree :=
  match t.chooseTemporary faults path with
  | .error fault => (.error ⟨path, fault⟩, t)
  | .ok temporary =>
    match (t.insert temporary (.file [])).completeTemporary faults temporary path bytes with
    | (.ok (), written) => (.ok (), written)
    | (.error fault, left) => (.error ⟨path, fault⟩, left.erase temporary)

end FileTree

/-- Where files are read and written. -/
structure Storage (m : Type → Type) where
  /-- The content of a file. -/
  read : String → m (Except FileError Bytes)
  /-- Puts content into a file, whole or not at all. -/
  write : String → Bytes → m (Except FileError Unit)

/-- A tree as storage, with steps that fail for other reasons. -/
def FileTree.storage (faults : Faults) : Storage (StateM FileTree) where
  read path := return (← get).readUnder faults path
  write path bytes := modifyGet fun t ↦ t.writeAtomic faults path bytes

end FirmwareSeal
