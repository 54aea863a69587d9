import FirmwareSeal.Command.Arguments
import FirmwareSeal.Command.Event
import FirmwareSeal.Flash.Stream
import FirmwareSeal.Image.Firmware
import FirmwareSeal.Key.Development
import FirmwareSeal.Signature.Ed25519ph
import FirmwareSeal.Signature.SelfTest
import FirmwareSeal.Store.Access

/-!
# The two commands

One command signs a firmware file with the development key, the other packs a signed image into a
flash stream. Both read one file, make new content out of it, and write that to another path whole
or not at all. `Tool.execute` runs a command on any storage; on a `FileTree` it is a function of
the tree.
-/

namespace FirmwareSeal

namespace Command

/-- The commands. -/
inductive Tool where
  | signer
  | packer
  deriving DecidableEq

/-- The family of the flash blocks that the packer makes. -/
def flashFamily : UInt32 := 0xa7d76373

/-- The flash address where bare metal images are loaded. -/
def baremetalStart : UInt32 := 0x60060000

namespace Tool

/-- The name that a command is called by. -/
def name : Tool → String
  | .signer => "bao-signer"
  | .packer => "bao-uf2ify"

/-- What the input is, in the help text. -/
def inputHelp : Tool → String
  | .signer => "Raw firmware binary, or a previously signed image"
  | .packer => "Signed image produced by bao-signer"

/-- What the output is, in the help text. -/
def outputHelp : Tool → String
  | .signer => "Where to write the signed image"
  | .packer => "Where to write the UF2 file"

/-- The help text of a command. -/
def helpText (tool : Tool) : String :=
  "Usage: " ++ tool.name ++ " <INPUT> <OUTPUT>\n\nArguments:\n  <INPUT>   " ++ tool.inputHelp ++
    "\n  <OUTPUT>  " ++ tool.outputHelp ++
    "\n\nOptions:\n  -h, --help     Print help\n  -V, --version  Print version\n"

/-- The version text of a command. -/
def versionText (tool : Tool) : String := tool.name ++ " 0.1.0\n"

/-- The message when the input cannot be read. -/
def readFailure : Tool → String
  | .signer => "Error: Failed to read firmware"
  | .packer => "Error: Failed to read signed image"

/-- The message when the output cannot be written. -/
def writeFailure : Tool → String
  | .signer => "Error: Failed to write signed image"
  | .packer => "Error: Failed to write UF2 file"

/-- What a command says when it is done. -/
def doneText (tool : Tool) (output : String) : String :=
  match tool with
  | .signer => "Signed firmware blob written to " ++ output ++ "\n"
  | .packer => "UF2 image written to " ++ output ++ "\n"

/-- What a command does before it reads anything: the signer proves its signatures. -/
def prepare : Tool → Except String (List Event)
  | .signer =>
    match selfTest ed25519ph with
    | .ok () => .ok [.selfTestPassed]
    | .error _ => .error "Error: Ed25519ph self test failed"
  | .packer => .ok []

/-- The signed image of a firmware, as the release options have it, with what is reported on the
way. -/
def signRelease (firmware : Bytes) : List Event × Except String Bytes :=
  match developmentSeed with
  | .error e => ([.firmwareRead firmware.length], .error ("Error: " ++ e.message))
  | .ok seed =>
    let sliced := if isWrapped firmware then [Event.envelopeSliced signatureBlockLength] else []
    let events := .firmwareRead firmware.length :: sliced ++
      [.payloadFound (stripEnvelope firmware).length,
        .keySlotChosen TrustedKey.development.tagText]
    match sealFirmware ed25519ph seed.toList firmware .release with
    | .error _ => (events, .error "Error: Failed to sign firmware")
    | .ok image => (events ++ [.signatureMade ((image.drop 4).take 64)], .ok image)

/-- The flash stream of an image at the place of bare metal images, with what is reported on the
way. -/
def packBaremetal (path : String) (image : Bytes) : List Event × Bytes :=
  let doubt := if isWrapped image then [] else [Event.imageNotWrapped path]
  let stream := Flash.pack image flashFamily baremetalStart
  (.imageRead image.length :: doubt ++
    [.imagePacked image.length, .blocksPacked (stream.length / Flash.blockLength)], stream)

/-- What a command makes of the content of its input. -/
def process (tool : Tool) (path : String) (content : Bytes) : List Event × Except String Bytes :=
  match tool with
  | .signer => signRelease content
  | .packer => (packBaremetal path content).map id .ok

end Tool

/-- How a command ended: its exit code, what it printed, what it reported, and the first line of
its error message. Printing is supposed to succeed: where standard output is closed or its medium is
full, a run that has done all else ends with an exit code other than zero. -/
structure Outcome where
  exitCode : Nat
  output : String
  events : List Event
  error : Option String
  deriving DecidableEq

/-- A run that did what was asked. -/
def Outcome.done (output : String) (events : List Event) : Outcome := ⟨0, output, events, none⟩

/-- A run that failed after its arguments were understood. -/
def Outcome.failed (message : String) (events : List Event) : Outcome :=
  ⟨1, "", events, some message⟩

/-- A run whose arguments were not understood. -/
def Outcome.misused (e : UsageError) : Outcome := ⟨2, "", [], some e.message⟩

/-- What a run writes beside its output: complaints about the filter, the log lines that the filter
shows, and the error message. -/
def Outcome.report (outcome : Outcome) (filter : Log.Filter) (complaints : List Log.FilterError) :
    String :=
  String.join (complaints.map fun e ↦ e.warning ++ "\n") ++ logText filter outcome.events ++
    String.join (outcome.error.toList.map (· ++ "\n"))

namespace Tool

/-- Makes the output file out of the input file. What is printed at the end is a part of the outcome
and cannot fail. -/
def convert {m : Type → Type} [Monad m] (storage : Storage m) (tool : Tool)
    (input output : String) (prepared : List Event) : m Outcome := do
  match ← storage.read input with
  | .error _ => return .failed tool.readFailure prepared
  | .ok content =>
    match tool.process input content with
    | (events, .error message) => return .failed message (prepared ++ events)
    | (events, .ok result) =>
      match ← storage.write output result with
      | .error _ => return .failed tool.writeFailure (prepared ++ events)
      | .ok () => return .done (tool.doneText output) (prepared ++ events)

/-- On a tree, making the output file is a function of the tree. -/
theorem run_convert (tool : Tool) (faults : Faults) (input output : String)
    (prepared : List Event) (t : FileTree) :
    (convert (FileTree.storage faults) tool input output prepared).run t =
      match t.readUnder faults input with
      | .error _ => (.failed tool.readFailure prepared, t)
      | .ok content =>
        match tool.process input content with
        | (events, .error message) => (.failed message (prepared ++ events), t)
        | (events, .ok result) =>
          match t.writeAtomic faults output result with
          | (.error _, after) => (.failed tool.writeFailure (prepared ++ events), after)
          | (.ok (), after) => (.done (tool.doneText output) (prepared ++ events), after) := by
  cases hr : t.readUnder faults input with
  | error e =>
    simp only [convert, FileTree.storage, StateT.run_bind, StateT.run_get, pure_bind,
      StateT.run_pure, hr]
    rfl
  | ok content =>
    rcases hp : tool.process input content with ⟨events, result⟩
    cases result with
    | error message =>
      simp only [convert, FileTree.storage, StateT.run_bind, StateT.run_get, pure_bind,
        StateT.run_pure, hr, hp]
      rfl
    | ok result =>
      rcases hw : t.writeAtomic faults output result with ⟨written, after⟩
      simp only [convert, FileTree.storage, StateT.run_bind, StateT.run_get, pure_bind,
        StateT.run_pure, hr, hp, StateT.run_modifyGet, hw]
      cases written <;> rfl

/-- Runs a command on its arguments. -/
def execute {m : Type → Type} [Monad m] (storage : Storage m) (tool : Tool)
    (arguments : List String) : m Outcome :=
  match parseArguments arguments with
  | .error e => return .misused e
  | .ok .help => return .done tool.helpText []
  | .ok .version => return .done tool.versionText []
  | .ok (.run input output) =>
    match tool.prepare with
    | .error message => return .failed message []
    | .ok prepared => convert storage tool input output prepared

end Tool

end Command

end FirmwareSeal
