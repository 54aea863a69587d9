import FirmwareSeal.Proofs.Store.Paths
import Mathlib.Data.List.Nodup

/-!
# Writing whole files

The new file of a write never shows. Its name is free and not in the path, so the path leads to the
same place with it and without it; and it is gone when the write ends, however it ends. So a write
either puts the content where the path leads, or fails and changes nothing at all.
-/

namespace FirmwareSeal

/-- Whether every step of a write succeeds unless the tree is against it. -/
def Faults.AllowWriting (faults : Faults) : Prop :=
  ∀ step, step ≠ .load → faults.cause step = Option.none

namespace FileTree

/-! ## Free names -/

/-- The number in a name that is tried, with the zeros in front of it. -/
theorem toList_temporaryName (i : Nat) :
    (temporaryName i).toList = ['.', 't', 'm', 'p'] ++
      (List.replicate (6 - (toString i).length) '0' ++ Nat.toDigits 10 i) := by
  have hdigits : (toString i).toList = Nat.toDigits 10 i := String.toList_ofList
  simp only [temporaryName, String.toList_append, String.toList_ofList, hdigits, List.append_assoc]
  rfl

/-- The names tried are all different. -/
theorem temporaryName_injective : Function.Injective temporaryName := by
  -- The zeros in front of a number do not count, so the number is read back from the name.
  have hread (i : Nat) : Nat.ofDigitChars 10 ((temporaryName i).toList.drop 4) 0 = i := by
    rw [toList_temporaryName, List.drop_left' (by rfl), Nat.ofDigitChars_append,
      Nat.ofDigitChars_replicate_zero, Nat.mul_zero, Nat.ofDigitChars_ten_toDigits]
  intro i j h
  rw [← hread i, h, hread j]

/-- There is always a free name. -/
theorem exists_freshName (t : FileTree) (directory : Location) (avoided : List String) :
    ∃ name, t.freshName directory avoided = some name := by
  apply Option.isSome_iff_exists.mp
  unfold freshName
  rw [List.find?_isSome]
  by_contra hnone
  -- Otherwise every name tried is avoided or the last name of an entry, and they are too many.
  have htaken : ((List.range (t.entries.length + avoided.length + 1)).map temporaryName) ⊆
      avoided ++ t.entries.map fun p ↦ p.1.getLastD "" := by
    intro name hname
    by_contra hfree
    rw [List.mem_append, not_or] at hfree
    obtain ⟨havoided, hentries⟩ := hfree
    have hlookup : t.lookup (directory ++ [name]) = none := by
      refine lookup_eq_none_iff.mpr ⟨by simp, ?_⟩
      intro p hp hpl
      exact hentries (List.mem_map.mpr ⟨p, hp, by simp [hpl]⟩)
    exact hnone ⟨name, hname, decide_eq_true ⟨hlookup, havoided⟩⟩
  have hnodup : ((List.range (t.entries.length + avoided.length + 1)).map temporaryName).Nodup :=
    List.Nodup.map temporaryName_injective List.nodup_range
  have hle := hnodup.length_le_of_subset htaken
  simp only [List.length_map, List.length_range, List.length_append] at hle
  omega

section

variable {t : FileTree} {path : String}

/-- A new file is made for every path whose directory is there, unless its own path is too long. -/
theorem exists_temporaryLocation_iff :
    (∃ l, t.temporaryLocation path = .ok l) ↔
      Path.check (Path.directoryText path ++ "/" ++ temporaryName 0) = .ok () ∧
        ∃ directory, t.walk [] (Path.parent path) = .ok directory := by
  constructor
  · rintro ⟨l, h⟩
    obtain ⟨_, hcheck, h⟩ := bind_eq_ok_iff.mp h
    obtain ⟨directory, hwalk, -⟩ := bind_eq_ok_iff.mp h
    exact ⟨hcheck, directory, hwalk⟩
  · rintro ⟨hcheck, directory, hwalk⟩
    obtain ⟨name, hname⟩ := t.exists_freshName directory (Path.segments path)
    refine ⟨directory ++ [name], bind_eq_ok_iff.mpr ⟨_, hcheck, bind_eq_ok_iff.mpr ⟨_, hwalk, ?_⟩⟩⟩
    rw [hname]
    rfl

/-- The name of a new file is not in the path. -/
theorem exists_name_of_temporaryLocation {l : Location} (h : t.temporaryLocation path = .ok l) :
    ∃ directory name, l = directory ++ [name] ∧ name ∉ Path.segments path := by
  obtain ⟨_, -, h⟩ := bind_eq_ok_iff.mp h
  obtain ⟨directory, -, h⟩ := bind_eq_ok_iff.mp h
  split at h
  · cases h
  · next name hname =>
    have hfree := List.find?_some hname
    simp only [decide_eq_true_eq] at hfree
    exact ⟨directory, name, (Except.ok.inj h).symm, hfree.2⟩

/-- With its new file a tree still agrees with itself on the path. -/
theorem agreeOn_insert_temporary {l : Location} (h : t.temporaryLocation path = .ok l) (e : Entry) :
    (t.insert l e).AgreeOn t (Path.segments path) := by
  obtain ⟨d, fresh, rfl, hfresh⟩ := exists_name_of_temporaryLocation h
  intro directory name hname
  apply lookup_insert_of_ne
  intro heq
  have hlast : name = fresh := by simpa using (List.append_inj' heq rfl).2
  exact hfresh (hlast ▸ hname)

end

/-! ## Writing -/

/-- Where a write to a path ends up, if no step of it fails. -/
def writeTarget (t : FileTree) (faults : Faults) (path : String) : Except FileFault Location := do
  let _ ← t.chooseTemporary faults path
  attempt faults .fill
  t.chooseTarget faults path

/-- Whether a tree can take a file at a path, in a given place. -/
structure CanReceive (t : FileTree) (path : String) (l : Location) : Prop where
  /-- The path of the new file is not too long. -/
  check : Path.check (Path.directoryText path ++ "/" ++ temporaryName 0) = .ok ()
  /-- The new file has a directory. -/
  parent : ∃ directory, t.walk [] (Path.parent path) = .ok directory
  namesFile : Path.NamesFile path
  resolves : t.resolve? path = some l
  free : t.lookup l ≠ some .directory

section

variable {t : FileTree} {faults : Faults} {path : String}

/-- A file is never put in the place of the top directory. -/
theorem CanReceive.ne_nil {l : Location} (h : t.CanReceive path l) : l ≠ [] := by
  rintro rfl
  exact h.free (if_pos rfl)

/-- Trees with the same directories take the same files. -/
theorem CanReceive.of_sameDirectories {u : FileTree} (h : t.SameDirectories u) {l : Location}
    (hreceive : t.CanReceive path l) : u.CanReceive path l where
  check := hreceive.check
  parent := hreceive.parent.imp fun _ hwalk ↦ h.walk_eq_ok hwalk
  namesFile := hreceive.namesFile
  resolves := (h.resolve?_eq path).trans hreceive.resolves
  free := (not_congr (h l)).mp hreceive.free

/-- The new file of a write is made where nothing is. -/
theorem temporaryLocation_of_chooseTemporary {l : Location}
    (h : t.chooseTemporary faults path = .ok l) : t.temporaryLocation path = .ok l := by
  obtain ⟨_, -, h⟩ := bind_eq_ok_iff.mp h
  exact h

/-- The place where a write ends up is chosen as if there were no new file. -/
theorem chooseTarget_insert_temporary {l : Location} (h : t.temporaryLocation path = .ok l)
    (faults : Faults) (e : Entry) :
    (t.insert l e).chooseTarget faults path = t.chooseTarget faults path := by
  unfold chooseTarget
  rw [(agreeOn_insert_temporary h e).renameTarget_eq]

/-- A write puts the content in its place, or fails and leaves the tree as it is. Nothing remains of
the new file. -/
theorem writeAtomic_eq (bytes : Bytes) :
    t.writeAtomic faults path bytes =
      match t.writeTarget faults path with
      | .ok target => (.ok (), t.insert target (.file bytes))
      | .error fault => (.error ⟨path, fault⟩, t) := by
  unfold writeAtomic writeTarget
  cases hchosen : t.chooseTemporary faults path with
  | error fault => rfl
  | ok temporary =>
    have htemporary := temporaryLocation_of_chooseTemporary hchosen
    have herase (e : Entry) : (t.insert temporary e).erase temporary = t :=
      erase_insert_of_lookup_eq_none e (lookup_temporaryLocation htemporary)
    have htarget := chooseTarget_insert_temporary htemporary faults (.file bytes)
    simp only [completeTemporary, insert_insert, htarget, bind, Except.bind]
    cases attempt faults .fill with
    | error fault => simp only [herase]
    | ok _ =>
      cases t.chooseTarget faults path with
      | error fault => simp only [herase]
      | ok target => simp only [herase]

/-- A write succeeds exactly if no step is to fail and the tree can take the file. -/
theorem writeTarget_eq_ok_iff {l : Location} :
    t.writeTarget faults path = .ok l ↔ faults.AllowWriting ∧ t.CanReceive path l := by
  have hsteps : t.writeTarget faults path = .ok l ↔
      (faults.cause .create = none ∧ faults.cause .fill = none ∧ faults.cause .sync = none ∧
        faults.cause .rename = none) ∧
      (∃ temporary, t.temporaryLocation path = .ok temporary) ∧ t.renameTarget path = .ok l := by
    rw [writeTarget, bind_eq_ok_iff]
    simp only [chooseTemporary, chooseTarget, attempt_bind_eq_ok_iff]
    constructor
    · rintro ⟨temporary, ⟨hcreate, htemporary⟩, hfill, hsync, hrename, htarget⟩
      exact ⟨⟨hcreate, hfill, hsync, hrename⟩, ⟨temporary, htemporary⟩, htarget⟩
    · rintro ⟨⟨hcreate, hfill, hsync, hrename⟩, ⟨temporary, htemporary⟩, htarget⟩
      exact ⟨temporary, ⟨hcreate, htemporary⟩, hfill, hsync, hrename, htarget⟩
  rw [hsteps, exists_temporaryLocation_iff, renameTarget_eq_ok_iff]
  constructor
  · rintro ⟨⟨hcreate, hfill, hsync, hrename⟩, ⟨hcheck, hparent⟩, hfile, hresolve, hfree⟩
    refine ⟨?_, hcheck, hparent, hfile, hresolve, hfree⟩
    intro step hstep
    cases step with
    | load => exact absurd rfl hstep
    | create => exact hcreate
    | fill => exact hfill
    | sync => exact hsync
    | rename => exact hrename
  · rintro ⟨hall, hreceive⟩
    refine ⟨⟨?_, ?_, ?_, ?_⟩, ⟨hreceive.check, hreceive.parent⟩, hreceive.namesFile,
      hreceive.resolves, hreceive.free⟩
    all_goals exact hall _ (by decide)

end

end FileTree

end FirmwareSeal
