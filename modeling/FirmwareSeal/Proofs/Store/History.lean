import FirmwareSeal.Proofs.Store.Writing

/-!
# Calls on a tree of files

Files are read and written by calls that come one after the other, and each of them may fail for
reasons of its own. No call makes or removes a directory, so a path leads to the same location
during the whole run. A call that fails changes nothing, and what a location holds after a run is
what the last write there that succeeded has put into it.
-/

namespace FirmwareSeal

/-- A call that reads or writes a file. -/
inductive FileCall where
  | read (path : String) (faults : Faults)
  | write (path : String) (bytes : Bytes) (faults : Faults)

/-- What a call answers. -/
inductive FileAnswer where
  | content (bytes : Bytes)
  | written
  | failed (error : FileError)
  deriving DecidableEq

namespace FileCall

/-- The path of a call, as it is given. -/
def path : FileCall → String
  | .read path _ => path
  | .write path _ _ => path

/-- Serves a call on the tree. -/
def serve : FileCall → StateM FileTree FileAnswer
  | .read path faults => return match ← (FileTree.storage faults).read path with
    | .ok bytes => .content bytes
    | .error e => .failed e
  | .write path bytes faults => return match ← (FileTree.storage faults).write path bytes with
    | .ok () => .written
    | .error e => .failed e

/-- What a call answers on a tree. -/
def answer (call : FileCall) (t : FileTree) : FileAnswer := (call.serve.run t).1

/-- The tree that a call leaves. -/
def next (call : FileCall) (t : FileTree) : FileTree := (call.serve.run t).2

/-- The tree that a run of calls leaves. -/
def treeAfter (calls : List FileCall) (t : FileTree) : FileTree :=
  calls.foldl (fun current call ↦ call.next current) t

/-- What a call puts into a location, if it is a write that succeeds and leads there. -/
def putsInto (l : Location) (t : FileTree) (call : FileCall) : Option Bytes :=
  match call with
  | .read _ _ => none
  | .write path bytes _ =>
    if call.answer t = .written ∧ t.resolve? path = some l then some bytes else none

/-- What the calls of a run put into a location, from the first to the last. -/
def contents (l : Location) : List FileCall → FileTree → List Bytes
  | [], _ => []
  | call :: rest, t => (call.putsInto l t).toList ++ contents l rest (call.next t)

/-! ## One call -/

section

variable {t : FileTree} {path : String} {bytes : Bytes} {faults : Faults} {l : Location}

/-- Reading leaves the tree as it is. -/
@[simp] theorem next_read : (read path faults).next t = t := rfl

/-- A read answers the content, or why there is none. -/
theorem answer_read :
    (read path faults).answer t =
      match t.readUnder faults path with
      | .ok bytes => .content bytes
      | .error e => .failed e := rfl

/-- A write answers whether it succeeded, and otherwise why not. -/
theorem answer_write :
    (write path bytes faults).answer t =
      match (t.writeAtomic faults path bytes).1 with
      | .ok () => .written
      | .error e => .failed e := rfl

/-- A write leaves the tree that an atomic write makes. -/
theorem next_write :
    (write path bytes faults).next t = (t.writeAtomic faults path bytes).2 := rfl

/-- A write that has a target puts the content there. -/
theorem write_of_writeTarget_ok (bytes : Bytes) (h : t.writeTarget faults path = .ok l) :
    (write path bytes faults).answer t = .written ∧
      (write path bytes faults).next t = t.insert l (.file bytes) := by
  rw [answer_write, next_write, FileTree.writeAtomic_eq, h]
  exact ⟨rfl, rfl⟩

/-- A write that has no target fails and leaves the tree as it is. -/
theorem write_of_writeTarget_error (bytes : Bytes) {fault : FileFault}
    (h : t.writeTarget faults path = .error fault) :
    (write path bytes faults).answer t = .failed ⟨path, fault⟩ ∧
      (write path bytes faults).next t = t := by
  rw [answer_write, next_write, FileTree.writeAtomic_eq, h]
  exact ⟨rfl, rfl⟩

/-- A read answers the content of the file that its path leads to, if the path can stand for a file
and the step does not fail. -/
theorem answer_read_eq_content_iff :
    (read path faults).answer t = .content bytes ↔
      faults.cause .load = none ∧ Path.NamesFile path ∧
        ∃ l, t.resolve? path = some l ∧ t.lookup l = some (.file bytes) := by
  rw [answer_read, ← FileTree.content_eq_ok_iff, ← FileTree.readUnder_eq_ok_iff]
  cases t.readUnder faults path <;> simp

/-- Only a write says that it has written. -/
theorem exists_write_of_written {call : FileCall} (h : call.answer t = .written) :
    ∃ path bytes faults, call = write path bytes faults := by
  cases call with
  | write path bytes faults => exact ⟨path, bytes, faults, rfl⟩
  | read path faults =>
    rw [answer_read] at h
    split at h <;> cases h

/-- A write that succeeds puts its content where its path leads. -/
theorem exists_location_of_written (h : (write path bytes faults).answer t = .written) :
    ∃ l, t.CanReceive path l ∧ (write path bytes faults).next t = t.insert l (.file bytes) := by
  cases htarget : t.writeTarget faults path with
  | error fault =>
    rw [(write_of_writeTarget_error bytes htarget).1] at h
    cases h
  | ok l =>
    exact ⟨l, (FileTree.writeTarget_eq_ok_iff.mp htarget).2,
      (write_of_writeTarget_ok bytes htarget).2⟩

/-- A write succeeds exactly if no step of it fails and the tree can take the file. -/
theorem answer_write_eq_written_iff :
    (write path bytes faults).answer t = .written ↔
      faults.AllowWriting ∧ ∃ l, t.CanReceive path l := by
  rw [← exists_and_left]
  simp only [← FileTree.writeTarget_eq_ok_iff]
  cases htarget : t.writeTarget faults path with
  | error fault => simp [(write_of_writeTarget_error bytes htarget).1]
  | ok l => simp [(write_of_writeTarget_ok bytes htarget).1]

/-- A call that fails leaves the tree as it is and names its path. -/
theorem next_of_failed {call : FileCall} {e : FileError} (h : call.answer t = .failed e) :
    call.next t = t ∧ e.path = call.path := by
  cases call with
  | read path faults =>
    refine ⟨next_read, ?_⟩
    rw [answer_read] at h
    split at h
    · cases h
    · next e' hread =>
      cases h
      exact FileTree.path_of_readUnder_error hread
  | write path bytes faults =>
    cases htarget : t.writeTarget faults path with
    | ok l =>
      rw [(write_of_writeTarget_ok bytes htarget).1] at h
      cases h
    | error fault =>
      obtain ⟨hanswer, hnext⟩ := write_of_writeTarget_error bytes htarget
      rw [hanswer] at h
      cases h
      exact ⟨hnext, rfl⟩

/-- A call that does not write leaves the tree as it is. -/
theorem next_of_not_written {call : FileCall} (h : call.answer t ≠ .written) :
    call.next t = t := by
  cases hanswer : call.answer t with
  | written => exact absurd hanswer h
  | failed e => exact (next_of_failed hanswer).1
  | content bytes =>
    cases call with
    | read path faults => rfl
    | write path bytes' faults =>
      rw [answer_write] at hanswer
      split at hanswer <;> cases hanswer

/-- No call makes or removes a directory. -/
theorem sameDirectories_next (call : FileCall) (t : FileTree) :
    t.SameDirectories (call.next t) := by
  by_cases h : call.answer t = .written
  · obtain ⟨path, bytes, faults, rfl⟩ := exists_write_of_written h
    obtain ⟨l, hreceive, hnext⟩ := exists_location_of_written h
    rw [hnext]
    exact FileTree.sameDirectories_insert_file hreceive.free bytes
  · rw [next_of_not_written h]
    exact FileTree.SameDirectories.refl t

/-- A location holds what a call puts into it, or what it held before. -/
theorem lookup_next (call : FileCall) (t : FileTree) (l : Location) :
    (call.next t).lookup l = ((call.putsInto l t).map Entry.file).or (t.lookup l) := by
  by_cases h : call.answer t = .written
  · obtain ⟨path, bytes, faults, rfl⟩ := exists_write_of_written h
    obtain ⟨target, hreceive, hnext⟩ := exists_location_of_written h
    rw [hnext]
    by_cases hl : l = target
    · subst hl
      have hputs : (write path bytes faults).putsInto l t = some bytes :=
        if_pos ⟨h, hreceive.resolves⟩
      rw [FileTree.lookup_insert_self t _ hreceive.ne_nil, hputs]
      rfl
    · have hputs : (write path bytes faults).putsInto l t = none := by
        apply if_neg
        rintro ⟨-, hresolve⟩
        exact hl (Option.some.inj (hresolve.symm.trans hreceive.resolves))
      rw [FileTree.lookup_insert_of_ne t _ hl, hputs]
      rfl
  · have hputs : call.putsInto l t = none := by
      cases call with
      | read path faults => rfl
      | write path bytes faults => exact if_neg fun hwritten ↦ h hwritten.1
    rw [next_of_not_written h, hputs]
    rfl

/-! ## A run of calls -/

/-- No run makes or removes a directory. -/
theorem sameDirectories_treeAfter (calls : List FileCall) (t : FileTree) :
    t.SameDirectories (treeAfter calls t) := by
  induction calls generalizing t with
  | nil => exact FileTree.SameDirectories.refl t
  | cons call rest ih => exact (call.sameDirectories_next t).trans (ih (call.next t))

/-- A location holds what a run has put into it last, or what it held at the start if nothing was
put into it. -/
theorem lookup_treeAfter (calls : List FileCall) (t : FileTree) (l : Location) :
    (treeAfter calls t).lookup l =
      ((contents l calls t).getLast?.map Entry.file).or (t.lookup l) := by
  induction calls generalizing t with
  | nil => rfl
  | cons call rest ih =>
    have hrest : (treeAfter (call :: rest) t).lookup l = _ := ih (call.next t)
    rw [hrest, lookup_next, contents, List.getLast?_append, ← Option.or_assoc]
    cases call.putsInto l t <;> cases (contents l rest (call.next t)).getLast? <;> simp

end

/-- After any run of calls: a call that fails leaves the tree as it is and names its path as it is
given. A write succeeds exactly if no step of it fails and the tree can take the file; the location
that its path leads to then holds the content, and no other location changes. A read leaves the tree
as it is, and it gives what the run has put last into the location that its path leads to, or what
was there at the start if the run has put nothing there. -/
theorem calls_write_whole_files_or_nothing (t : FileTree) (calls : List FileCall) :
    (∀ (call : FileCall) (e : FileError), call.answer (treeAfter calls t) = .failed e →
      call.next (treeAfter calls t) = treeAfter calls t ∧ e.path = call.path) ∧
    (∀ (path : String) (bytes : Bytes) (faults : Faults),
      ((write path bytes faults).answer (treeAfter calls t) = .written ↔
        faults.AllowWriting ∧ ∃ l, t.CanReceive path l) ∧
      ((write path bytes faults).answer (treeAfter calls t) = .written →
        ∃ l, t.resolve? path = some l ∧
          ((write path bytes faults).next (treeAfter calls t)).lookup l = some (.file bytes) ∧
          ∀ k ≠ l, ((write path bytes faults).next (treeAfter calls t)).lookup k =
            (treeAfter calls t).lookup k)) ∧
    ∀ (path : String) (faults : Faults),
      (read path faults).next (treeAfter calls t) = treeAfter calls t ∧
      ∀ bytes, (read path faults).answer (treeAfter calls t) = .content bytes ↔
        faults.cause .load = none ∧ Path.NamesFile path ∧ ∃ l, t.resolve? path = some l ∧
          ((contents l calls t).getLast?.map Entry.file).or (t.lookup l) = some (.file bytes) := by
  have hsame := sameDirectories_treeAfter calls t
  refine ⟨fun call e h ↦ next_of_failed h, ?_, ?_⟩
  · intro path bytes faults
    constructor
    · rw [answer_write_eq_written_iff]
      apply and_congr_right
      intro _
      apply exists_congr
      intro l
      exact ⟨.of_sameDirectories hsame.symm, .of_sameDirectories hsame⟩
    · intro h
      obtain ⟨l, hreceive, hnext⟩ := exists_location_of_written h
      rw [hnext]
      refine ⟨l, ?_, FileTree.lookup_insert_self _ _ hreceive.ne_nil, ?_⟩
      · rw [← hsame.resolve?_eq path]
        exact hreceive.resolves
      · intro k hk
        exact FileTree.lookup_insert_of_ne _ _ hk
  · intro path faults
    refine ⟨next_read, ?_⟩
    intro bytes
    rw [answer_read_eq_content_iff, hsame.resolve?_eq path]
    simp only [lookup_treeAfter]

/-- In a tree of one directory with one file, a run has written that file, failed to write it again
and to write the directory, and written a second file. The first file holds what was written first;
it is not written on a full medium, and it is through another path to it. -/
theorem calls_write_whole_files_or_nothing_in_small_tree :
    let t : FileTree := ⟨[(["d"], .directory), (["d", "a"], .file [1])]⟩
    let full : Faults := ⟨fun step ↦ if step = .sync then some (.other "medium full") else none, 0⟩
    let calls : List FileCall :=
      [write "d/a" [2] .none, write "d/a" [3] full, write "d" [4] .none, write "d/b" [5] .none]
    (read "d/a" .none).answer (treeAfter calls t) = .content [2] ∧
    (∃ e, (write "d/a" [6] full).answer (treeAfter calls t) = .failed e ∧ e.path = "d/a" ∧
      (write "d/a" [6] full).next (treeAfter calls t) = treeAfter calls t) ∧
    ∃ l, t.resolve? "./d//a" = some l ∧
      ((write "./d//a" [7] .none).next (treeAfter calls t)).lookup l = some (.file [7]) := by
  intro t full calls
  obtain ⟨hfailed, hwrite, hread⟩ := calls_write_whole_files_or_nothing t calls
  refine ⟨?_, ?_, ?_⟩
  · refine ((hread "d/a" .none).2 [2]).mpr ⟨rfl, ⟨by decide +kernel, by decide +kernel⟩, ["d", "a"],
      by decide +kernel, by decide +kernel⟩
  · obtain ⟨e, he⟩ : ∃ e, (write "d/a" [6] full).answer (treeAfter calls t) = .failed e :=
      ⟨⟨"d/a", .other "medium full"⟩, by decide +kernel⟩
    obtain ⟨hnext, hpath⟩ := hfailed _ e he
    exact ⟨e, he, hpath, hnext⟩
  · obtain ⟨l, hresolve, hlookup, -⟩ :=
      (hwrite "./d//a" [7] .none).2 (by decide +kernel)
    exact ⟨l, hresolve, hlookup⟩

end FileCall

end FirmwareSeal
