import FirmwareSeal.Command.Tool
import FirmwareSeal.Proofs.Signature.Completeness
import FirmwareSeal.Proofs.Store.Writing

/-!
# How a run of a command ends

A run ends in one of six ways: its arguments are not understood, it prints the help or the version,
it cannot read the input, it cannot write the output, or it writes what it makes of the input. Only
the last one touches the tree. Nothing else can go wrong: the signer reproduces the known answer,
and the disclosed seed signs every firmware.
-/

namespace FirmwareSeal

namespace Command

/-- A command with its arguments, and what goes wrong beside the tree while it runs. -/
structure Invocation where
  tool : Tool
  arguments : List String
  faults : Faults

namespace Invocation

/-- How a run on a tree ends. -/
def outcome (call : Invocation) (t : FileTree) : Outcome :=
  ((call.tool.execute (FileTree.storage call.faults) call.arguments).run t).1

/-- The tree that a run leaves. -/
def next (call : Invocation) (t : FileTree) : FileTree :=
  ((call.tool.execute (FileTree.storage call.faults) call.arguments).run t).2

end Invocation

namespace Tool

/-- What a command is to make of a content: the signer seals it for release under the disclosed
seed, the packer makes a stream of it at the place of bare metal images. -/
def Makes (tool : Tool) (content result : Bytes) : Prop :=
  match tool with
  | .signer => ∃ seed, developmentSeed = .ok seed ∧
      sealFirmware ed25519ph seed.toList content .release = .ok result
  | .packer => result = Flash.pack content flashFamily baremetalStart

/-! ## Nothing goes wrong inside a command -/

/-- A command is always ready to begin; the signer has reproduced the known answer by then. -/
theorem exists_prepare_eq (tool : Tool) : ∃ prepared, tool.prepare = .ok prepared := by
  cases tool with
  | signer =>
    have htested : signer.prepare = .ok [.selfTestPassed] := by decide +kernel
    exact ⟨_, htested⟩
  | packer => exact ⟨[], rfl⟩

/-- The signer gives the image that the disclosed seed seals. -/
theorem exists_signRelease_eq {seed : Octets 32} {content image : Bytes}
    (hseed : developmentSeed = .ok seed)
    (hseal : sealFirmware ed25519ph seed.toList content .release = .ok image) :
    ∃ events, signRelease content = (events, .ok image) := by
  unfold signRelease
  rw [hseed]
  dsimp only
  rw [hseal]
  exact ⟨_, rfl⟩

/-- A command makes something of every content. -/
theorem exists_process_eq (tool : Tool) (path : String) (content : Bytes) :
    ∃ events result, tool.process path content = (events, .ok result) ∧
      tool.Makes content result := by
  cases tool with
  | signer =>
    obtain ⟨seed, hseed⟩ := Ed25519ph.exists_developmentSeed
    obtain ⟨image, hseal, -⟩ := Ed25519ph.exists_verified_image hseed content .release
    obtain ⟨events, hsign⟩ := exists_signRelease_eq hseed hseal
    exact ⟨events, image, hsign, seed, hseed, hseal⟩
  | packer => exact ⟨_, _, rfl, rfl⟩

/-- A command makes one thing of a content. -/
theorem Makes.unique {tool : Tool} {content a b : Bytes} (ha : tool.Makes content a)
    (hb : tool.Makes content b) : a = b := by
  cases tool with
  | signer =>
    obtain ⟨seed, hseed, ha⟩ := ha
    obtain ⟨seed', hseed', hb⟩ := hb
    obtain rfl := Except.ok.inj (hseed.symm.trans hseed')
    exact Except.ok.inj (ha.symm.trans hb)
  | packer => exact ha.trans hb.symm

end Tool

namespace Invocation

/-! ## The ways to end -/

/-- How a run on a tree can end, and which tree it then leaves. -/
inductive Ends (call : Invocation) (t : FileTree) : Outcome → FileTree → Prop where
  /-- The arguments are not understood. -/
  | misused (e : UsageError) (hparse : parseArguments call.arguments = .error e) :
    Ends call t (.misused e) t
  /-- The help is printed. -/
  | help (hparse : parseArguments call.arguments = .ok .help) :
    Ends call t (.done call.tool.helpText []) t
  /-- The version is printed. -/
  | version (hparse : parseArguments call.arguments = .ok .version) :
    Ends call t (.done call.tool.versionText []) t
  /-- The input cannot be read; the output is not looked at. -/
  | unread (input output : String) (e : FileError) (events : List Event)
    (hparse : parseArguments call.arguments = .ok (.run input output))
    (hread : t.readUnder call.faults input = .error e) :
    Ends call t (.failed call.tool.readFailure events) t
  /-- The input is read, but the output cannot be written. -/
  | unwritten (input output : String) (content : Bytes) (fault : FileFault) (events : List Event)
    (hparse : parseArguments call.arguments = .ok (.run input output))
    (hread : t.readUnder call.faults input = .ok content)
    (hwrite : t.writeTarget call.faults output = .error fault) :
    Ends call t (.failed call.tool.writeFailure events) t
  /-- What is made of the input is written. -/
  | written (input output : String) (content result : Bytes) (l : Location) (events : List Event)
    (hparse : parseArguments call.arguments = .ok (.run input output))
    (hread : t.readUnder call.faults input = .ok content)
    (hmakes : call.tool.Makes content result)
    (hwrite : t.writeTarget call.faults output = .ok l) :
    Ends call t (.done (call.tool.doneText output) events) (t.insert l (.file result))

/-- Every run ends in one of these ways. -/
theorem ends (call : Invocation) (t : FileTree) : call.Ends t (call.outcome t) (call.next t) := by
  unfold outcome next Tool.execute
  cases hparse : parseArguments call.arguments with
  | error e => exact .misused e hparse
  | ok request =>
    cases request with
    | help => exact .help hparse
    | version => exact .version hparse
    | run input output =>
      obtain ⟨prepared, hprepare⟩ := call.tool.exists_prepare_eq
      simp only [hprepare, Tool.run_convert]
      cases hread : t.readUnder call.faults input with
      | error e => exact .unread input output e prepared hparse hread
      | ok content =>
        obtain ⟨events, result, hprocess, hmakes⟩ := call.tool.exists_process_eq input content
        simp only [hprocess, FileTree.writeAtomic_eq]
        cases hwrite : t.writeTarget call.faults output with
        | error fault => exact .unwritten input output content fault _ hparse hread hwrite
        | ok l => exact .written input output content result l _ hparse hread hmakes hwrite

end Invocation

end Command

end FirmwareSeal
