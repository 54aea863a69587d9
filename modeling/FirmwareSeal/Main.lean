import FirmwareSeal.Command.Tool

/-!
# The program

Runs the command that the program is called by on the files of the machine: `bao-uf2ify` packs, any
other name signs. Log lines and the error message go to standard error. Everything else is decided
by `Command.Tool.execute`.
-/

namespace FirmwareSeal

namespace Main

/-- Runs an action on a file and takes note of its failure. -/
def noting {α : Type} (path : String) (action : IO α) : IO (Except FileError α) := do
  try
    return .ok (← action)
  catch e =>
    return .error ⟨path, .other (toString e)⟩

/-- The directory of the last name in a path. -/
def directoryOf (path : String) : String :=
  let directory := Path.directoryText path
  if !directory.isEmpty then directory else if path.startsWith "/" then "/" else "."

/-- Writes to a new file beside the path and moves it there; the new file does not outlive a
failure. `FileTree.writeAtomic` describes it but for three things. The content is flushed and not
brought to the medium, so that a crash of the machine can lose it. One random name is tried: if it
is taken, writing fails. The file can be read by whoever may read a new file, not by its owner
alone. -/
def replaceFile (path : String) (bytes : Bytes) : IO Unit := do
  let temporary := directoryOf path ++ "/.tmp" ++ toString (← IO.rand 100000 999999)
  let handle ← IO.FS.Handle.mk temporary .writeNew
  try
    handle.write ⟨bytes.toArray⟩
    handle.flush
    IO.FS.rename temporary path
  catch e =>
    IO.FS.removeFile temporary
    throw e

/-- The files of the machine. -/
def machine : Storage IO where
  read path := noting path do return (← IO.FS.readBinFile path).toList
  write path bytes := noting path (replaceFile path bytes)

end Main

end FirmwareSeal

open FirmwareSeal in
/-- Runs the command that the program is called by. -/
def main (arguments : List String) : IO UInt32 := do
  let tool := if (← IO.appPath).fileName == some Command.Tool.packer.name then
    Command.Tool.packer else Command.Tool.signer
  let (filter, complaints) := match ← IO.getEnv "RUST_LOG" with
    | none => (Log.Filter.standard, [])
    | some text => Log.Filter.ofText text
  let outcome ← tool.execute Main.machine arguments
  IO.eprint (outcome.report filter complaints)
  IO.print outcome.output
  return UInt32.ofNat outcome.exitCode
