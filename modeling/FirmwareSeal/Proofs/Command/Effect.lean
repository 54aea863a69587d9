import FirmwareSeal.Proofs.Command.Runs
import FirmwareSeal.Proofs.FlashCycle

/-!
# What a command does to the tree

A run that does not exit with zero leaves the tree as it is, and so does one that only prints
something. Any other run changes the place that its output leads to and nothing else, also when the
input leads there. A signed file stays as it is when it is signed in place, whatever else is written
to other places in between.
-/

namespace FirmwareSeal

/-- Whether a tree is another one with a content where a path leads to. -/
def FileTree.IsUpdateOf (u t : FileTree) (path : String) (bytes : Bytes) : Prop :=
  ∃ l, t.resolve? path = some l ∧ u.lookup l = some (.file bytes) ∧
    ∀ k ≠ l, u.lookup k = t.lookup k

/-- Nothing changes if the content was there before. -/
theorem FileTree.IsUpdateOf.lookup_eq {u t : FileTree} {path : String} {bytes : Bytes}
    {l : Location} (h : u.IsUpdateOf t path bytes) (hresolve : t.resolve? path = some l)
    (hlookup : t.lookup l = some (.file bytes)) (k : Location) : u.lookup k = t.lookup k := by
  obtain ⟨target, htarget, hnew, hothers⟩ := h
  obtain rfl := Option.some.inj (hresolve.symm.trans htarget)
  by_cases hk : k = l
  · rw [hk, hnew, hlookup]
  · exact hothers k hk

namespace Command

/-- What the signer made of something is what it makes of that again. -/
theorem Tool.Makes.again {firmware image : Bytes} (h : Tool.signer.Makes firmware image) :
    Tool.signer.Makes image image := by
  obtain ⟨seed, hseed, hseal⟩ := h
  let request : SealRequest := ⟨ed25519ph, seed.toList, .release⟩
  exact ⟨seed, hseed, request.answer_of_answer_ok hseal⟩

namespace Invocation

/-- Whether a call is to make an output of an input with a tool. -/
def Converts (call : Invocation) (tool : Tool) (input output : String) : Prop :=
  call.tool = tool ∧ parseArguments call.arguments = .ok (.run input output)

/-- Whether a call writes to a place only to sign what is there. -/
def OnlySigns (call : Invocation) (t : FileTree) (l : Location) : Prop :=
  ∀ tool input output, call.Converts tool input output → t.resolve? output = some l →
    tool = .signer ∧ t.resolve? input = some l

/-- The tree that a run of calls leaves. -/
def treeAfter (calls : List Invocation) (t : FileTree) : FileTree :=
  calls.foldl (fun current call ↦ call.next current) t

/-- A run of no calls leaves the tree as it is. -/
@[simp] theorem treeAfter_nil (t : FileTree) : treeAfter [] t = t := rfl

/-- What a call that is to make an output of an input does to a tree, and what it says. -/
structure MakesOutput (call : Invocation) (t : FileTree) (tool : Tool) (input output : String) :
    Prop where
  /-- It exits with zero exactly if no step fails, the input can be read and the output can be
  written. -/
  exits : (call.outcome t).exitCode = 0 ↔
    (∀ step, call.faults.cause step = none) ∧ (∃ content, t.content input = .ok content) ∧
      ∃ l, t.CanReceive output l
  /-- If the input cannot be read it reports this, whatever is wrong with the output. -/
  unread : (∀ content, t.readUnder call.faults input ≠ .ok content) →
    (call.outcome t).error = some tool.readFailure
  /-- If the input can be read but the run fails, it reports that the output cannot be written. -/
  unwritten : ∀ content, t.readUnder call.faults input = .ok content →
    (call.outcome t).exitCode ≠ 0 → (call.outcome t).error = some tool.writeFailure
  /-- If it exits with zero, the place of the output holds what the command makes of the content of
  the input, and no other place changes. -/
  written : (call.outcome t).exitCode = 0 →
    ∃ content result, t.content input = .ok content ∧ tool.Makes content result ∧
      (call.next t).IsUpdateOf t output result

/-- Whether signing a file once more in place succeeds unless a step fails, and changes nothing. -/
def ResignsToItself (u : FileTree) (path : String) : Prop :=
  ∀ run : Invocation, run.Converts .signer path path →
    ((run.outcome u).exitCode = 0 ↔ ∀ step, run.faults.cause step = none) ∧
      ∀ k, (run.next u).lookup k = u.lookup k

/-- Whether the file that a path leads to, signed in a tree that was another one before, stays as it
is and is signed again to itself, through every run of calls that write to its place only to sign
it. -/
def StaysSigned (before u : FileTree) (path : String) : Prop :=
  ∃ l image, before.resolve? path = some l ∧
    ∀ later : List Invocation, (∀ run ∈ later, run.OnlySigns before l) →
      (treeAfter later u).lookup l = some (.file image) ∧
        ResignsToItself (treeAfter later u) path

section

variable {call : Invocation} {t after : FileTree} {outcome : Outcome} {tool : Tool}
  {input output : String}

/-! ## One call -/

/-- A run that does not exit with zero leaves the tree as it is. -/
theorem Ends.eq_of_exitCode_ne_zero (h : call.Ends t outcome after) (hexit : outcome.exitCode ≠ 0) :
    after = t := by
  cases h with
  | written => exact absurd rfl hexit
  | _ => rfl

/-- A run that prints the help or the version exits with zero and leaves the tree as it is. -/
theorem Ends.of_help_or_version (h : call.Ends t outcome after)
    (hasked : parseArguments call.arguments = .ok .help ∨
      parseArguments call.arguments = .ok .version) : outcome.exitCode = 0 ∧ after = t := by
  cases h with
  | help | version => exact ⟨rfl, rfl⟩
  | misused e hparse | unread _ _ _ _ hparse | unwritten _ _ _ _ _ hparse
  | written _ _ _ _ _ _ hparse =>
    rw [hparse] at hasked
    rcases hasked with hasked | hasked <;> cases hasked

/-- What a call does that is to make an output of an input: first the input decides, then the
output. -/
theorem Ends.of_converts (h : call.Ends t outcome after) (hcall : call.Converts tool input output) :
    match t.readUnder call.faults input, t.writeTarget call.faults output with
    | .error _, _ => outcome = .failed tool.readFailure outcome.events
    | .ok _, .error _ => outcome = .failed tool.writeFailure outcome.events
    | .ok content, .ok l => outcome.exitCode = 0 ∧
        ∃ result, tool.Makes content result ∧ after = t.insert l (.file result) := by
  obtain ⟨rfl, hrun⟩ := hcall
  cases h with
  | misused e hparse => cases hrun.symm.trans hparse
  | help hparse => cases hrun.symm.trans hparse
  | version hparse => cases hrun.symm.trans hparse
  | unread _ _ e events hparse hread =>
    cases hrun.symm.trans hparse
    rw [hread]
    rfl
  | unwritten _ _ content fault events hparse hread hwrite =>
    cases hrun.symm.trans hparse
    rw [hread, hwrite]
    rfl
  | written _ _ content result l events hparse hread hmakes hwrite =>
    cases hrun.symm.trans hparse
    rw [hread, hwrite]
    exact ⟨rfl, result, hmakes, rfl⟩

/-- A run exits with zero exactly if its input is read and its output has a target. -/
theorem Ends.exitCode_eq_zero_iff (h : call.Ends t outcome after)
    (hcall : call.Converts tool input output) :
    outcome.exitCode = 0 ↔ (∃ content, t.readUnder call.faults input = .ok content) ∧
      ∃ l, t.writeTarget call.faults output = .ok l := by
  have hends := h.of_converts hcall
  cases hread : t.readUnder call.faults input with
  | error e =>
    rw [hread] at hends
    rw [hends]
    simp [Outcome.failed]
  | ok content =>
    cases hwrite : t.writeTarget call.faults output with
    | error fault =>
      rw [hread, hwrite] at hends
      rw [hends]
      simp [Outcome.failed]
    | ok l =>
      rw [hread, hwrite] at hends
      simp [hends.1]

/-- If the input cannot be read, a run reports this, whatever is wrong with the output. -/
theorem error_of_unread (hcall : call.Converts tool input output)
    (hread : ∀ content, t.readUnder call.faults input ≠ .ok content) :
    (call.outcome t).error = some tool.readFailure := by
  have hends := (call.ends t).of_converts hcall
  cases h : t.readUnder call.faults input with
  | ok content => exact absurd h (hread content)
  | error e =>
    rw [h] at hends
    rw [hends]
    rfl

/-- If the input can be read but the run fails, it reports that the output cannot be written. -/
theorem error_of_unwritten (hcall : call.Converts tool input output) {content : Bytes}
    (hread : t.readUnder call.faults input = .ok content) (hexit : (call.outcome t).exitCode ≠ 0) :
    (call.outcome t).error = some tool.writeFailure := by
  have hends := (call.ends t).of_converts hcall
  cases hwrite : t.writeTarget call.faults output with
  | error fault =>
    rw [hread, hwrite] at hends
    rw [hends]
    rfl
  | ok l =>
    have hzero := ((call.ends t).exitCode_eq_zero_iff hcall).mpr ⟨⟨content, hread⟩, l, hwrite⟩
    exact absurd hzero hexit

/-- A run exits with zero exactly if no step of it fails, its input can be read and its output can
be written. -/
theorem exitCode_eq_zero_iff_of_converts (hcall : call.Converts tool input output) :
    (call.outcome t).exitCode = 0 ↔
      (∀ step, call.faults.cause step = none) ∧ (∃ content, t.content input = .ok content) ∧
        ∃ l, t.CanReceive output l := by
  rw [(call.ends t).exitCode_eq_zero_iff hcall]
  simp only [FileTree.readUnder_eq_ok_iff, FileTree.writeTarget_eq_ok_iff, exists_and_left]
  constructor
  · rintro ⟨⟨hload, hcontent⟩, hwriting, hreceive⟩
    refine ⟨?_, hcontent, hreceive⟩
    intro step
    by_cases hstep : step = .load
    · rw [hstep, hload]
    · exact hwriting step hstep
  · rintro ⟨hnone, hcontent, hreceive⟩
    exact ⟨⟨hnone .load, hcontent⟩, fun step _ ↦ hnone step, hreceive⟩

/-- A run that exits with zero puts what it makes of its input in the place of its output. -/
theorem next_of_exitCode_eq_zero (hcall : call.Converts tool input output)
    (hexit : (call.outcome t).exitCode = 0) :
    ∃ content result l, t.content input = .ok content ∧ tool.Makes content result ∧
      t.CanReceive output l ∧ call.next t = t.insert l (.file result) := by
  obtain ⟨⟨content, hread⟩, l, hwrite⟩ := ((call.ends t).exitCode_eq_zero_iff hcall).mp hexit
  have hends := (call.ends t).of_converts hcall
  rw [hread, hwrite] at hends
  obtain ⟨-, result, hmakes, hnext⟩ := hends
  exact ⟨content, result, l, (FileTree.readUnder_eq_ok_iff.mp hread).2, hmakes,
    (FileTree.writeTarget_eq_ok_iff.mp hwrite).2, hnext⟩

/-- A run that exits with zero changes the place of its output and nothing else. -/
theorem isUpdateOf_next (hcall : call.Converts tool input output)
    (hexit : (call.outcome t).exitCode = 0) :
    ∃ content result, t.content input = .ok content ∧ tool.Makes content result ∧
      (call.next t).IsUpdateOf t output result := by
  obtain ⟨content, result, l, hcontent, hmakes, hreceive, hnext⟩ :=
    next_of_exitCode_eq_zero hcall hexit
  rw [hnext]
  exact ⟨content, result, hcontent, hmakes, l, hreceive.resolves,
    FileTree.lookup_insert_self t _ hreceive.ne_nil,
    fun k hk ↦ FileTree.lookup_insert_of_ne t _ hk⟩

/-- Signing a signed file copies it. -/
theorem isUpdateOf_next_of_signed (hcall : call.Converts .signer input output)
    (hexit : (call.outcome t).exitCode = 0) {firmware image : Bytes}
    (hcontent : t.content input = .ok image) (himage : Tool.signer.Makes firmware image) :
    (call.next t).IsUpdateOf t output image := by
  obtain ⟨content, result, hcontent', hmakes, hupdate⟩ := isUpdateOf_next hcall hexit
  obtain rfl := Except.ok.inj (hcontent.symm.trans hcontent')
  rwa [hmakes.unique himage.again] at hupdate

/-- No call makes or removes a directory. -/
theorem Ends.sameDirectories (h : call.Ends t outcome after) : t.SameDirectories after := by
  cases h with
  | written _ _ _ result l _ _ _ _ hwrite =>
    have hreceive := (FileTree.writeTarget_eq_ok_iff.mp hwrite).2
    exact FileTree.sameDirectories_insert_file hreceive.free result
  | _ => exact FileTree.SameDirectories.refl t

/-! ## A signed file and a run of calls -/

/-- Trees with the same directories make no difference to where a call signs. -/
theorem OnlySigns.of_sameDirectories {u : FileTree} {l : Location} (h : t.SameDirectories u)
    (hcall : call.OnlySigns t l) : call.OnlySigns u l := by
  intro tool input output hconverts hresolve
  rw [h.resolve?_eq] at hresolve ⊢
  exact hcall tool input output hconverts hresolve

/-- Signing a file in place only signs. -/
theorem Converts.onlySigns {path : String} {l : Location}
    (hcall : call.Converts .signer path path) (hresolve : t.resolve? path = some l) :
    call.OnlySigns t l := by
  rintro tool input output ⟨rfl, hparse⟩ houtput
  cases hcall.2.symm.trans hparse
  exact ⟨hcall.1, hresolve⟩

/-- A signed file stays as it is in a call that signs in its place at most. -/
theorem Ends.lookup_of_onlySigns {l : Location} {firmware image : Bytes}
    (h : call.Ends t outcome after) (himage : Tool.signer.Makes firmware image)
    (hlookup : t.lookup l = some (.file image)) (hcall : call.OnlySigns t l) :
    after.lookup l = some (.file image) := by
  cases h with
  | written input output content result target _ hparse hread hmakes hwrite =>
    have hreceive := (FileTree.writeTarget_eq_ok_iff.mp hwrite).2
    by_cases hl : l = target
    · subst hl
      obtain ⟨htool, hinput⟩ := hcall _ input output ⟨rfl, hparse⟩ hreceive.resolves
      -- The input is the signed file, so the signer makes the same image of it.
      obtain ⟨-, source, hsource, hcontent⟩ :=
        FileTree.content_eq_ok_iff.mp (FileTree.readUnder_eq_ok_iff.mp hread).2
      obtain rfl := Option.some.inj (hinput.symm.trans hsource)
      have hsame : content = image := by simpa [hlookup] using hcontent.symm
      rw [htool, hsame] at hmakes
      rw [FileTree.lookup_insert_self t _ hreceive.ne_nil, hmakes.unique himage.again]
    · rw [FileTree.lookup_insert_of_ne t _ hl, hlookup]
  | _ => exact hlookup

/-- No run makes or removes a directory. -/
theorem sameDirectories_treeAfter (calls : List Invocation) (t : FileTree) :
    t.SameDirectories (treeAfter calls t) := by
  induction calls generalizing t with
  | nil => exact FileTree.SameDirectories.refl t
  | cons call rest ih => exact (call.ends t).sameDirectories.trans (ih (call.next t))

/-- A signed file stays as it is in a run of calls that sign in its place at most. -/
theorem lookup_treeAfter_of_onlySigns {calls : List Invocation} {l : Location}
    {firmware image : Bytes} (himage : Tool.signer.Makes firmware image)
    (hlookup : t.lookup l = some (.file image)) (hcalls : ∀ call ∈ calls, call.OnlySigns t l) :
    (treeAfter calls t).lookup l = some (.file image) := by
  induction calls generalizing t with
  | nil => exact hlookup
  | cons call rest ih =>
    rw [List.forall_mem_cons] at hcalls
    obtain ⟨hcall, hrest⟩ := hcalls
    apply ih ((call.ends t).lookup_of_onlySigns himage hlookup hcall)
    intro later hlater
    exact (hrest later hlater).of_sameDirectories (call.ends t).sameDirectories

/-- A call that is to make an output of an input does so. -/
theorem makesOutput_of_converts (hcall : call.Converts tool input output) :
    call.MakesOutput t tool input output where
  exits := exitCode_eq_zero_iff_of_converts hcall
  unread := error_of_unread hcall
  unwritten _ := error_of_unwritten hcall
  written := isUpdateOf_next hcall

/-- A signed file is signed again to itself. -/
theorem resignsToItself {path : String} {l : Location} {firmware image : Bytes}
    (hreceive : t.CanReceive path l) (himage : Tool.signer.Makes firmware image)
    (hlookup : t.lookup l = some (.file image)) : ResignsToItself t path := by
  intro run hrun
  have hcontent : t.content path = .ok image :=
    FileTree.content_eq_ok_iff.mpr ⟨hreceive.namesFile, l, hreceive.resolves, hlookup⟩
  constructor
  · rw [exitCode_eq_zero_iff_of_converts hrun]
    exact and_iff_left ⟨⟨image, hcontent⟩, l, hreceive⟩
  · intro k
    by_cases hexit : (run.outcome t).exitCode = 0
    · have hupdate := isUpdateOf_next_of_signed hrun hexit hcontent himage
      exact hupdate.lookup_eq hreceive.resolves hlookup k
    · rw [(run.ends t).eq_of_exitCode_ne_zero hexit]

/-- A file that is signed in place stays signed. -/
theorem staysSigned_next {path : String} (hcall : call.Converts .signer path path)
    (hexit : (call.outcome t).exitCode = 0) : StaysSigned t (call.next t) path := by
  obtain ⟨content, image, l, -, himage, hreceive, hnext⟩ := next_of_exitCode_eq_zero hcall hexit
  refine ⟨l, image, hreceive.resolves, ?_⟩
  intro later hlater
  have hfirst : (call.next t).lookup l = some (.file image) := by
    rw [hnext]
    exact FileTree.lookup_insert_self t _ hreceive.ne_nil
  have hsame := (call.ends t).sameDirectories
  have hkept := lookup_treeAfter_of_onlySigns himage hfirst fun run hrun ↦
    (hlater run hrun).of_sameDirectories hsame
  have hall := hsame.trans (sameDirectories_treeAfter later (call.next t))
  exact ⟨hkept, resignsToItself (hreceive.of_sameDirectories hall) himage hkept⟩

end

/-- A run that does not exit with zero leaves the tree as it is, and so does one that prints the
help or the version. A run that is to make an output of an input exits with zero exactly if no step
fails, the input can be read and the output can be written; otherwise it reports the reading, if
that fails, and else the writing. If it exits with zero, the place of the output holds what the
command makes of the content of the input, and no other place changes. When a file has been signed
in place it stays as it is, through every run of commands that write to its place only to sign it in
place, and signing it once more in place succeeds unless a step fails and changes nothing. Signing a
signed file copies it. -/
theorem commands_change_at_most_their_output (call : Invocation) (t : FileTree) :
    ((call.outcome t).exitCode ≠ 0 → call.next t = t) ∧
    (parseArguments call.arguments = .ok .help ∨ parseArguments call.arguments = .ok .version →
      (call.outcome t).exitCode = 0 ∧ call.next t = t) ∧
    (∀ tool input output, call.Converts tool input output →
      call.MakesOutput t tool input output) ∧
    (∀ path, call.Converts .signer path path → (call.outcome t).exitCode = 0 →
      StaysSigned t (call.next t) path) ∧
    ∀ input output firmware image, call.Converts .signer input output →
      (call.outcome t).exitCode = 0 → t.content input = .ok image →
      Tool.signer.Makes firmware image → (call.next t).IsUpdateOf t output image := by
  refine ⟨(call.ends t).eq_of_exitCode_ne_zero, (call.ends t).of_help_or_version, ?_, ?_, ?_⟩
  · intro tool input output hcall
    exact makesOutput_of_converts hcall
  · intro path hcall hexit
    exact staysSigned_next hcall hexit
  · intro input output firmware image hcall hexit hcontent himage
    exact isUpdateOf_next_of_signed hcall hexit hcontent himage

/-- In a tree of one file, the signer signs the file in place, and then does so three times more.
The packer does not find its input, and does not get as far as seeing that its output is a
directory. -/
theorem commands_change_at_most_their_output_in_small_tree :
    let t : FileTree := ⟨[(["a"], .file [1])]⟩
    let sign : Invocation := ⟨.signer, ["a", "a"], .none⟩
    let pack : Invocation := ⟨.packer, ["x", "/"], .none⟩
    (∃ image, Tool.signer.Makes [1] image ∧ (sign.next t).lookup ["a"] = some (.file image) ∧
      (treeAfter [sign, sign] (sign.next t)).lookup ["a"] = some (.file image) ∧
      (sign.outcome (treeAfter [sign, sign] (sign.next t))).exitCode = 0) ∧
    (pack.outcome t).error = some "Error: Failed to read signed image" ∧ pack.next t = t := by
  intro t sign pack
  obtain ⟨-, -, hconvert, hsigned, -⟩ := commands_change_at_most_their_output sign t
  obtain ⟨hfailed, -, hpack, -⟩ := commands_change_at_most_their_output pack t
  constructor
  · have hcall : sign.Converts .signer "a" "a" := ⟨rfl, by decide +kernel⟩
    have hreceive : t.CanReceive "a" ["a"] :=
      ⟨by decide +kernel, ⟨[], by decide +kernel⟩, ⟨by decide +kernel, by decide +kernel⟩,
        by decide +kernel, by decide +kernel⟩
    have hcontent : t.content "a" = .ok [1] := by decide +kernel
    have hmade := hconvert .signer "a" "a" hcall
    have hexit := hmade.exits.mpr ⟨fun _ ↦ rfl, ⟨[1], hcontent⟩, ["a"], hreceive⟩
    obtain ⟨content, image, hread, hmakes, l, hresolve, hnew, -⟩ := hmade.written hexit
    obtain rfl := Except.ok.inj (hcontent.symm.trans hread)
    obtain rfl := Option.some.inj (hreceive.resolves.symm.trans hresolve)
    obtain ⟨l, kept, hplace, hlater⟩ := hsigned "a" hcall hexit
    obtain rfl := Option.some.inj (hresolve.symm.trans hplace)
    have honly : sign.OnlySigns t ["a"] := hcall.onlySigns hresolve
    obtain ⟨hkept, -⟩ := hlater [] (List.forall_mem_nil _)
    obtain ⟨hkept', hagain⟩ := hlater [sign, sign] (by simp [honly])
    obtain ⟨hexit', -⟩ := hagain sign hcall
    rw [treeAfter_nil, hnew] at hkept
    rw [← hkept] at hkept'
    exact ⟨image, hmakes, hnew, hkept', hexit'.mpr fun _ ↦ rfl⟩
  · have hmade := hpack .packer "x" "/" ⟨rfl, by decide +kernel⟩
    have hread : t.readUnder .none "x" = .error ⟨"x", .notFound⟩ := by decide +kernel
    have hnothing (content : Bytes) : t.readUnder .none "x" ≠ .ok content := by
      rw [hread]
      exact nofun
    refine ⟨hmade.unread hnothing, hfailed ?_⟩
    intro hexit
    obtain ⟨-, ⟨content, hcontent⟩, -⟩ := hmade.exits.mp hexit
    exact hnothing content (FileTree.readUnder_eq_ok_iff.mpr ⟨rfl, hcontent⟩)

end Invocation

end Command

end FirmwareSeal
