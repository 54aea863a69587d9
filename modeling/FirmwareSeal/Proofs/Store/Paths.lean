import FirmwareSeal.Store.Access

/-!
# What following a path depends on

A path is followed through the locations whose last names it holds, so an entry under any other
name makes no difference to it. Of these locations only the directories matter for where the path
ends: trees with the same directories lead every path to the same place. Reading needs a file in
that place and replacing needs anything but a directory there.
-/

namespace FirmwareSeal

/-- Steps in a row succeed if each of them does. -/
theorem bind_eq_ok_iff {ε α β : Type} {x : Except ε α} {f : α → Except ε β} {b : β} :
    x >>= f = .ok b ↔ ∃ a, x = .ok a ∧ f a = .ok b := by
  cases x with
  | error e => exact iff_of_false (fun h ↦ nomatch h) (fun ⟨_, h, _⟩ ↦ nomatch h)
  | ok a => exact ⟨fun h ↦ ⟨a, rfl, h⟩, fun ⟨_, ha, hb⟩ ↦ Except.ok.inj ha ▸ hb⟩

namespace Path

/-- Whether a path can stand for a file: it does not ask for a directory, and its last name is not
too long. -/
structure NamesFile (path : String) : Prop where
  noSlash : endsInSlash path = false
  shortName : ∀ name ∈ (segments path).getLast?, name.utf8ByteSize ≤ nameLimit

end Path

namespace FileTree

/-- Where a path ends, if it ends in a name. -/
def resolve? (t : FileTree) (path : String) : Option Location :=
  match t.locate path with
  | .ok (directory, some name) => some (directory ++ [name])
  | _ => none

section

variable {t u : FileTree} {path : String}

/-! ## Entries under other names -/

/-- Whether two trees hold the same under some names, in every directory. -/
def AgreeOn (t u : FileTree) (names : List String) : Prop :=
  ∀ directory, ∀ name ∈ names, t.lookup (directory ++ [name]) = u.lookup (directory ++ [name])

/-- A name on which trees agree stands for the same in both. -/
theorem AgreeOn.child_eq {names : List String} (h : t.AgreeOn u names) {name : String}
    (hname : name ∈ names) (directory : Location) :
    t.child directory name = u.child directory name := by
  unfold child
  rw [h directory name hname]

/-- Names on which trees agree are followed alike. -/
theorem AgreeOn.walk_eq {names : List String} (h : t.AgreeOn u names) (directory : Location) :
    t.walk directory names = u.walk directory names := by
  induction names generalizing directory with
  | nil => rfl
  | cons name names ih =>
    have hrest := ih fun d n hn ↦ h d n (List.mem_cons_of_mem name hn)
    unfold walk
    rw [h.child_eq List.mem_cons_self]
    simp only [hrest]

/-- A path with names on which trees agree ends alike. -/
theorem AgreeOn.locate_eq (h : t.AgreeOn u (Path.segments path)) :
    t.locate path = u.locate path := by
  have hfront : t.AgreeOn u (Path.segments path).dropLast :=
    fun d n hn ↦ h d n ((List.dropLast_sublist _).mem hn)
  unfold locate
  rw [hfront.walk_eq]

/-- The name that a path ends in is its last one. -/
theorem getLast?_segments_of_locate {directory : Location} {name : String}
    (h : t.locate path = .ok (directory, some name)) :
    (Path.segments path).getLast? = some name := by
  obtain ⟨_, -, h⟩ := bind_eq_ok_iff.mp h
  split at h
  · cases h
  · next last hlast =>
    obtain ⟨d, -, h⟩ := bind_eq_ok_iff.mp h
    split at h
    · cases h
    · cases h
      exact hlast

/-- A file is moved to the same place by a path with names on which trees agree. -/
theorem AgreeOn.renameTarget_eq (h : t.AgreeOn u (Path.segments path)) :
    t.renameTarget path = u.renameTarget path := by
  unfold renameTarget
  rw [h.locate_eq]
  cases hlocate : u.locate path with
  | error fault => rfl
  | ok place =>
    obtain ⟨directory, name?⟩ := place
    cases name? with
    | none => rfl
    | some name =>
      have hname := List.mem_of_getLast? (getLast?_segments_of_locate hlocate)
      simp only [bind, Except.bind, h.child_eq hname]

/-! ## What a path ends in -/

/-- A path that ends in a name can stand for a file if there is no slash behind it and the name is
not too long. -/
theorem namesFile_iff_of_locate {directory : Location} {name : String}
    (h : t.locate path = .ok (directory, some name)) :
    Path.NamesFile path ↔
      Path.endsInSlash path = false ∧ name.utf8ByteSize ≤ Path.nameLimit := by
  have hlast := getLast?_segments_of_locate h
  constructor
  · intro hfile
    exact ⟨hfile.noSlash, hfile.shortName name hlast⟩
  · rintro ⟨hslash, hshort⟩
    refine ⟨hslash, ?_⟩
    intro other hother
    rw [hlast, Option.mem_some] at hother
    exact hother ▸ hshort

/-- A path that ends in a name leads to the location with this name. -/
theorem resolve?_of_locate {directory : Location} {name : String}
    (h : t.locate path = .ok (directory, some name)) :
    t.resolve? path = some (directory ++ [name]) := by
  rw [resolve?, h]

/-- Only a path that ends in a name leads to a location. -/
theorem exists_locate_of_resolve? {l : Location} (h : t.resolve? path = some l) :
    ∃ directory name, t.locate path = .ok (directory, some name) ∧ directory ++ [name] = l := by
  unfold resolve? at h
  split at h
  · next directory name hlocate => exact ⟨directory, name, hlocate, Option.some.inj h⟩
  · cases h

/-- A name that is not too long stands for what the tree holds under it. -/
theorem child_eq_ok_iff {directory : Location} {name : String} {found : Option Entry} :
    t.child directory name = .ok found ↔
      name.utf8ByteSize ≤ Path.nameLimit ∧ t.lookup (directory ++ [name]) = found := by
  unfold child
  split
  · next h => simp [Nat.not_le_of_lt h]
  · next h => simp [Nat.le_of_not_lt h]

/-! ## Reading and replacing -/

/-- A path can be read exactly if it can stand for a file and leads to one, and then the content of
this file is read. -/
theorem content_eq_ok_iff {bytes : Bytes} :
    t.content path = .ok bytes ↔
      Path.NamesFile path ∧ ∃ l, t.resolve? path = some l ∧ t.lookup l = some (.file bytes) := by
  constructor
  · intro h
    obtain ⟨⟨directory, name?⟩, hlocate, h⟩ := bind_eq_ok_iff.mp h
    cases name? with
    | none => cases h
    | some name =>
      obtain ⟨found, hchild, h⟩ := bind_eq_ok_iff.mp h
      obtain ⟨hshort, hfound⟩ := child_eq_ok_iff.mp hchild
      rcases found with _ | (bytes' | _)
      · cases h
      · simp only at h
        split at h
        · cases h
        · next hslash =>
          cases h
          exact ⟨(namesFile_iff_of_locate hlocate).mpr ⟨Bool.eq_false_iff.mpr hslash, hshort⟩, _,
            resolve?_of_locate hlocate, hfound⟩
      · cases h
  · rintro ⟨hfile, l, hresolve, hlookup⟩
    obtain ⟨directory, name, hlocate, rfl⟩ := exists_locate_of_resolve? hresolve
    obtain ⟨hslash, hshort⟩ := (namesFile_iff_of_locate hlocate).mp hfile
    refine bind_eq_ok_iff.mpr ⟨_, hlocate, bind_eq_ok_iff.mpr ⟨_,
      child_eq_ok_iff.mpr ⟨hshort, hlookup⟩, ?_⟩⟩
    simp only [hslash]
    rfl

/-- A step succeeds exactly if it is not to fail. -/
theorem attempt_eq_ok_iff {faults : Faults} {step : FileStep} :
    attempt faults step = .ok () ↔ faults.cause step = none := by
  unfold attempt
  split
  · next h => simp [h]
  · next h => simp [h]

/-- A step and what follows it succeed exactly if the step is not to fail and the rest succeeds. -/
theorem attempt_bind_eq_ok_iff {α : Type} {faults : Faults} {step : FileStep}
    {rest : Except FileFault α} {a : α} :
    (attempt faults step >>= fun _ ↦ rest) = .ok a ↔ faults.cause step = none ∧ rest = .ok a := by
  rw [bind_eq_ok_iff, ← attempt_eq_ok_iff]
  constructor
  · rintro ⟨_, hstep, hrest⟩
    exact ⟨hstep, hrest⟩
  · rintro ⟨hstep, hrest⟩
    exact ⟨(), hstep, hrest⟩

/-- A file is read exactly if the step does not fail and the path has a content. -/
theorem readUnder_eq_ok_iff {faults : Faults} {bytes : Bytes} :
    t.readUnder faults path = .ok bytes ↔
      faults.cause .load = none ∧ t.content path = .ok bytes := by
  rw [readUnder, ← attempt_bind_eq_ok_iff]
  cases attempt faults .load >>= fun _ ↦ t.content path with
  | error fault => exact iff_of_false (fun h ↦ nomatch h) (fun h ↦ nomatch h)
  | ok content =>
    constructor
    · intro h
      exact congrArg Except.ok (Except.ok.inj h)
    · intro h
      exact congrArg Except.ok (Except.ok.inj h)

/-- What goes wrong with reading names the path as it is given. -/
theorem path_of_readUnder_error {faults : Faults} {e : FileError}
    (h : t.readUnder faults path = .error e) : e.path = path := by
  unfold readUnder at h
  cases hread : attempt faults .load >>= fun _ ↦ t.content path with
  | error fault =>
    rw [hread] at h
    cases h
    rfl
  | ok bytes =>
    rw [hread] at h
    cases h

/-- A file can be moved to a path exactly if the path can stand for a file and does not lead to a
directory, and then it ends up where the path leads. -/
theorem renameTarget_eq_ok_iff {l : Location} :
    t.renameTarget path = .ok l ↔
      Path.NamesFile path ∧ t.resolve? path = some l ∧ t.lookup l ≠ some .directory := by
  constructor
  · intro h
    obtain ⟨⟨directory, name?⟩, hlocate, h⟩ := bind_eq_ok_iff.mp h
    cases name? with
    | none => cases h
    | some name =>
      obtain ⟨found, hchild, h⟩ := bind_eq_ok_iff.mp h
      obtain ⟨hshort, hfound⟩ := child_eq_ok_iff.mp hchild
      split at h
      · cases h
      · next hslash =>
        split at h
        · cases h
        · next hdirectory =>
          cases h
          exact ⟨(namesFile_iff_of_locate hlocate).mpr ⟨Bool.eq_false_iff.mpr hslash, hshort⟩,
            resolve?_of_locate hlocate, hfound ▸ hdirectory⟩
  · rintro ⟨hfile, hresolve, hlookup⟩
    obtain ⟨directory, name, hlocate, rfl⟩ := exists_locate_of_resolve? hresolve
    obtain ⟨hslash, hshort⟩ := (namesFile_iff_of_locate hlocate).mp hfile
    refine bind_eq_ok_iff.mpr ⟨_, hlocate, bind_eq_ok_iff.mpr ⟨_,
      child_eq_ok_iff.mpr ⟨hshort, rfl⟩, ?_⟩⟩
    rw [if_neg (Bool.eq_false_iff.mp hslash), if_neg hlookup]
    rfl

/-! ## Trees with the same directories -/

/-- Whether two trees have the same directories. -/
def SameDirectories (t u : FileTree) : Prop :=
  ∀ l, t.lookup l = some .directory ↔ u.lookup l = some .directory

/-- A tree has the same directories as itself. -/
theorem SameDirectories.refl (t : FileTree) : t.SameDirectories t := fun _ ↦ Iff.rfl

/-- Having the same directories goes both ways. -/
theorem SameDirectories.symm (h : t.SameDirectories u) : u.SameDirectories t := fun l ↦ (h l).symm

/-- Having the same directories carries over from tree to tree. -/
theorem SameDirectories.trans {v : FileTree} (h : t.SameDirectories u) (h' : u.SameDirectories v) :
    t.SameDirectories v :=
  fun l ↦ (h l).trans (h' l)

/-- A file where no directory is leaves all directories. -/
theorem sameDirectories_insert_file {l : Location} (h : t.lookup l ≠ some .directory)
    (bytes : Bytes) : t.SameDirectories (t.insert l (.file bytes)) := by
  intro k
  by_cases hk : k = l
  · have hl : l ≠ [] := by
      rintro rfl
      exact h (if_pos rfl)
    subst hk
    rw [lookup_insert_self t _ hl]
    simp [h]
  · rw [lookup_insert_of_ne t _ hk]

/-- The names that lead to a directory lead to it wherever the directories are the same. -/
theorem SameDirectories.walk_eq_ok (h : t.SameDirectories u) {names : List String}
    {directory reached : Location} (hwalk : t.walk directory names = .ok reached) :
    u.walk directory names = .ok reached := by
  induction names generalizing directory with
  | nil => exact hwalk
  | cons name names ih =>
    unfold walk at hwalk ⊢
    by_cases hdot : name = "."
    · rw [if_pos hdot] at hwalk ⊢
      exact ih hwalk
    by_cases hdots : name = ".."
    · rw [if_neg hdot, if_pos hdots] at hwalk ⊢
      exact ih hwalk
    rw [if_neg hdot, if_neg hdots] at hwalk ⊢
    -- Only a directory is entered, and it is one in the other tree too.
    split at hwalk
    · cases hwalk
    · cases hwalk
    · cases hwalk
    · next hchild =>
      obtain ⟨hshort, hlookup⟩ := child_eq_ok_iff.mp hchild
      rw [child_eq_ok_iff.mpr ⟨hshort, (h _).mp hlookup⟩]
      exact ih hwalk

/-- A path ends in the same place wherever the directories are the same. -/
theorem SameDirectories.locate_eq_ok (h : t.SameDirectories u) {place : Location × Option String}
    (hlocate : t.locate path = .ok place) : u.locate path = .ok place := by
  obtain ⟨_, hcheck, hlocate⟩ := bind_eq_ok_iff.mp hlocate
  refine bind_eq_ok_iff.mpr ⟨_, hcheck, ?_⟩
  split at hlocate
  · exact hlocate
  · obtain ⟨directory, hwalk, hplace⟩ := bind_eq_ok_iff.mp hlocate
    exact bind_eq_ok_iff.mpr ⟨directory, h.walk_eq_ok hwalk, hplace⟩

/-- A path leads to the same location wherever the directories are the same. -/
theorem SameDirectories.resolve?_eq (h : t.SameDirectories u) (path : String) :
    u.resolve? path = t.resolve? path := by
  apply Option.ext
  intro l
  constructor
  · intro hresolve
    obtain ⟨directory, name, hlocate, rfl⟩ := exists_locate_of_resolve? hresolve
    exact resolve?_of_locate (h.symm.locate_eq_ok hlocate)
  · intro hresolve
    obtain ⟨directory, name, hlocate, rfl⟩ := exists_locate_of_resolve? hresolve
    exact resolve?_of_locate (h.locate_eq_ok hlocate)

end

end FileTree

end FirmwareSeal
