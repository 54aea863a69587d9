import FirmwareSeal.Log.Filter
import FirmwareSeal.Proofs.Pattern.Places
import Mathlib

/-!
# The normal form keeps what a pattern fits

The reader never builds a sequence, a choice, a set or a repetition as it is written, but in normal
form. Each of the four ways to do so keeps the places where the pattern can end: `ends_ofSet`,
`ends_concat`, `endsAt_alternation` and `ends_repetition`. So a pattern occurs in the same texts
when it is brought to normal form from its smallest parts on, and a filter shows the same lines.
-/

namespace FirmwareSeal

namespace Pattern

variable (text : List Char)

/-! ## Sets -/

/-- A set of one character has that one. -/
theorem contains_single (c d : Char) : (CharSet.single c).contains d = (c == d) := by
  rw [Bool.eq_iff_iff, beq_iff_eq, ← Char.toNat_inj]
  simp only [CharSet.contains, CharSet.single, CharSet.inRange, List.any_cons, List.any_nil,
    Bool.or_false, Bool.and_eq_true, decide_eq_true_eq]
  omega

/-- Nothing lies behind a character of the set without characters. -/
theorem has_nothing (places : Places) (i : Nat) : (nothing.ends text places).has i = false := by
  cases i with
  | zero => rfl
  | succ i =>
    rw [nothing, ends, has_afterChar_succ]
    cases text[i]? <;> simp [CharSet.contains, CharSet.empty]

/-- The pattern of a set fits its characters, whatever the form of the set. -/
theorem ends_ofSet (asciiOnly : Bool) (s : CharSet) (places : Places) :
    (ofSet asciiOnly s).ends text places = afterChar s text places := by
  have hform (ranges : List (Nat × Nat)) (h : s.canonical.ranges = ranges) (c : Char) :
      CharSet.contains ⟨ranges⟩ c = s.contains c := by
    rw [← h]
    exact s.contains_canonical c
  unfold ofSet
  split
  · next h => exact afterChar_congr text (hform _ h) places
  · next first last h =>
    split
    · next hone =>
      obtain ⟨rfl, hvalid⟩ := hone
      refine afterChar_congr text (fun c ↦ ?_) places
      rw [← hform _ h, CharSet.single, Char.toNat_ofNat, if_pos hvalid]
    · exact afterChar_congr text s.contains_canonical places
  · exact afterChar_congr text s.contains_canonical places

/-! ## Sequences -/

/-- Patterns listed from the last one on are followed in the opposite order. -/
theorem ends_foldl_seq (before : List Pattern) (last : Pattern) (places : Places) :
    (before.foldl (fun after p ↦ .seq p after) last).ends text places =
      endsAll text (last :: before).reverse places := by
  induction before generalizing last with
  | nil => rfl
  | cons p before ih =>
    rw [List.foldl_cons, ih]
    simp only [List.reverse_cons, endsAll_append]
    rfl

/-- A sequence of parts fits pieces for them one after the other. -/
theorem ends_ofParts (ps : List Pattern) (places : Places) :
    (ofParts ps).ends text places = endsAll text ps places := by
  unfold ofParts
  split
  · next h =>
    rw [List.reverse_eq_nil_iff.1 h]
    rfl
  · next last before h => rw [ends_foldl_seq, ← h, List.reverse_reverse]

/-- The parts that were listed come before the parts of the pattern. -/
theorem endsAll_partsOnto (done : List Pattern) (p : Pattern) (places : Places) :
    endsAll text (partsOnto done p).reverse places =
      p.ends text (endsAll text done.reverse places) := by
  induction p generalizing done with
  | seq first second _ ih =>
    rw [partsOnto, ih, List.reverse_cons, endsAll_append]
    rfl
  | _ =>
    rw [partsOnto, List.reverse_cons, endsAll_append]
    · rfl
    · simp

/-- A pattern fits pieces for its parts one after the other. -/
theorem endsAll_parts (p : Pattern) (places : Places) :
    endsAll text p.parts places = p.ends text places :=
  endsAll_partsOnto text [] p places

/-- A part in front of others is followed first. -/
theorem endsAll_consPart (p : Pattern) (rest : List Pattern) (places : Places) :
    endsAll text (consPart p rest) places = endsAll text rest (p.ends text places) := by
  unfold consPart
  split <;> simp [endsAll, ends]

/-- A sequence in normal form fits pieces for its patterns one after the other. -/
theorem ends_concat (ps : List Pattern) (places : Places) :
    (concat ps).ends text places = endsAll text ps places := by
  have joined (qs : List Pattern) (places : Places) :
      endsAll text (qs.foldr consPart []) places = endsAll text qs places := by
    induction qs generalizing places with
    | nil => rfl
    | cons q qs ih => rw [List.foldr_cons, endsAll_consPart, ih, endsAll_cons]
  rw [concat, ends_ofParts, joined]
  induction ps generalizing places with
  | nil => rfl
  | cons p ps ih => rw [List.flatMap_cons, endsAll_append, endsAll_parts, ih, endsAll_cons]

/-! ## Choices -/

section

variable {places : Places} (h : places.length = text.length + 1) (i : Nat)

include h

/-- The branches that were listed are joined by the branches of the pattern. -/
theorem any_endsAt_branchesOnto (done : List Pattern) (p : Pattern) :
    (branchesOnto done p).any (endsAt text places i) =
      (done.any (endsAt text places i) || p.endsAt text places i) := by
  induction p generalizing done with
  | either left right _ ih =>
    rw [branchesOnto, ih, List.any_cons, endsAt_either text left right h, ← Bool.or_assoc,
      Bool.or_comm (done.any _)]
  | _ =>
    rw [branchesOnto, List.any_cons, Bool.or_comm]
    simp

/-- A pattern fits what one of its branches fits. -/
theorem any_endsAt_branches (p : Pattern) :
    p.branches.any (endsAt text places i) = p.endsAt text places i := by
  rw [branches, List.any_reverse, any_endsAt_branchesOnto text h]
  rfl

/-- Branches listed from the last one on make a choice between them. -/
theorem endsAt_foldl_either (before : List Pattern) (last : Pattern) :
    (before.foldl (fun after p ↦ .either p after) last).endsAt text places i =
      (last :: before).any (endsAt text places i) := by
  induction before generalizing last with
  | nil => simp
  | cons p before ih =>
    rw [List.foldl_cons, ih, List.any_cons, endsAt_either text p last h, List.any_cons,
      List.any_cons, Bool.or_comm (p.endsAt text places i), Bool.or_assoc]

/-- A choice between branches fits what one of them fits. -/
theorem endsAt_ofBranches (ps : List Pattern) :
    (ofBranches ps).endsAt text places i = ps.any (endsAt text places i) := by
  unfold ofBranches
  split
  · next hnil =>
    rw [List.reverse_eq_nil_iff.1 hnil]
    exact has_nothing text places i
  · next last before hcons => rw [endsAt_foldl_either text h, ← hcons, List.any_reverse]

end

/-- A list that every member of which has a value is mapped to these values. -/
theorem map_eq_of_mapM_eq_some {α β : Type} {f : α → Option β} {xs : List α} {ys : List β}
    (h : xs.mapM f = some ys) : xs.map f = ys.map some := by
  induction xs generalizing ys with
  | nil =>
    cases h
    rfl
  | cons x xs ih =>
    rw [List.mapM_cons] at h
    cases hx : f x with
    | none => simp [hx] at h
    | some y =>
      cases hrest : xs.mapM f with
      | none => simp [hx, hrest] at h
      | some rest =>
        simp only [hx, hrest, Option.bind_eq_bind, Option.bind_some, Option.pure_def,
          Option.some.injEq] at h
        rw [← h, List.map_cons, List.map_cons, hx, ih hrest]

/-- What lies behind a character of a union lies behind a character of one of the sets. -/
theorem has_afterChar_union (s t : CharSet) (places : Places) (i : Nat) :
    Places.has (afterChar (s.union t) text places) i =
      (Places.has (afterChar s text places) i || Places.has (afterChar t text places) i) := by
  cases i with
  | zero => rfl
  | succ i =>
    simp only [has_afterChar_succ]
    cases text[i]? with
    | none => simp
    | some c => simp only [Option.any_some, CharSet.contains_union, Bool.and_or_distrib_left]

/-- Branches each of which fits one character of a set fit together one of the union. -/
theorem any_endsAt_of_mapM {α : Type} {f : Pattern → Option α} {setOf : α → CharSet}
    (hf : ∀ p y, f p = some y → p.ends text = afterChar (setOf y) text) {ps : List Pattern}
    {ys : List α} (h : ps.mapM f = some ys) (places : Places) (i : Nat) :
    ps.any (endsAt text places i) =
      Places.has (afterChar ⟨ys.flatMap fun y ↦ (setOf y).ranges⟩ text places) i := by
  have hvalues := map_eq_of_mapM_eq_some h
  clear h
  induction ps generalizing ys with
  | nil =>
    rw [List.map_nil, eq_comm, List.map_eq_nil_iff] at hvalues
    subst hvalues
    exact (has_nothing text places i).symm
  | cons p ps ih =>
    cases ys with
    | nil => cases hvalues
    | cons y ys =>
      obtain ⟨hp, hrest⟩ := List.cons.inj hvalues
      rw [List.any_cons, ih hrest, endsAt, hf p y hp, ← has_afterChar_union]
      rfl

/-- The set that some branches have in common fits what one of them fits. -/
theorem any_endsAt_of_commonSet? {ps : List Pattern} {set : CharSet}
    (h : commonSet? ps = some set) (places : Places) (i : Nat) :
    ps.any (endsAt text places i) = Places.has (afterChar set text places) i := by
  have hchar (p : Pattern) (c : Char) (hp : asChar? p = some c) :
      p.ends text = afterChar (.single c) text := by
    unfold asChar? at hp
    split at hp
    · cases hp
      rfl
    · cases hp
  have hset (p : Pattern) (s : CharSet) (hp : asSet? p = some s) :
      p.ends text = afterChar s text := by
    unfold asSet? at hp
    split at hp
    · cases hp
      rfl
    · cases hp
  unfold commonSet? at h
  split at h
  · next cs hcs =>
    cases h
    rw [any_endsAt_of_mapM text hchar hcs, List.map_eq_flatMap]
    rfl
  · obtain ⟨sets, hsets, rfl⟩ := Option.map_eq_some_iff.mp h
    exact any_endsAt_of_mapM text hset hsets places i

/-- What two lists both begin with is the beginning of either. -/
theorem commonParts_prefix (ps qs : List Pattern) :
    commonParts ps qs <+: ps ∧ commonParts ps qs <+: qs := by
  unfold commonParts
  induction ps generalizing qs with
  | nil => simp
  | cons p ps ih =>
    cases qs with
    | nil => simp
    | cons q qs =>
      rw [List.zip_cons_cons, List.takeWhile_cons]
      split
      · next heq =>
        rw [decide_eq_true_eq] at heq
        simp only at heq
        subst heq
        simpa only [List.map_cons, List.prefix_cons_inj] using ih qs
      · simp

/-- What some lists begin with in common is the beginning of each of them. -/
theorem foldl_commonParts_prefix (others : List (List Pattern)) (ps : List Pattern) :
    ∀ qs ∈ ps :: others, others.foldl commonParts ps <+: qs := by
  induction others generalizing ps with
  | nil => simp
  | cons other others ih =>
    obtain ⟨hps, hother⟩ := commonParts_prefix ps other
    have hcommon := ih (commonParts ps other) _ List.mem_cons_self
    intro qs hqs
    simp only [List.mem_cons] at hqs
    rcases hqs with rfl | rfl | hqs
    · exact hcommon.trans hps
    · exact hcommon.trans hother
    · exact ih _ qs (List.mem_cons_of_mem _ hqs)

/-- What some branches begin with in common is the beginning of each of them. -/
theorem commonStart_prefix {ps : List Pattern} {p : Pattern} (hp : p ∈ ps) :
    commonStart ps <+: p.parts := by
  unfold commonStart
  split
  · next parts others h =>
    have hvalues := map_eq_of_mapM_eq_some h
    have hmem : severalParts? p ∈ (parts :: others).map some :=
      hvalues ▸ List.mem_map_of_mem hp
    obtain ⟨qs, hqs, heq⟩ := List.mem_map.mp hmem
    have hparts : p.parts = qs := by
      unfold severalParts? at heq
      split at heq
      · exact (Option.some.inj heq).symm
      · cases heq
    rw [hparts]
    exact foldl_commonParts_prefix others parts qs hqs
  · exact List.nil_prefix

/-- A pattern fits what its first parts fit, followed by what its other parts fit. -/
theorem ends_eq_of_parts_prefix {p : Pattern} {common : List Pattern} (h : common <+: p.parts)
    (places : Places) :
    p.ends text places =
      (concat (p.parts.drop common.length)).ends text (endsAll text common places) := by
  rw [ends_concat, ← endsAll_append, List.prefix_iff_eq_append.mp h, endsAll_parts]

/-- Patterns that begin alike fit what one of their other parts fits behind the common ones. -/
theorem any_endsAt_of_common {ps common : List Pattern} (h : ∀ p ∈ ps, common <+: p.parts)
    (places : Places) (i : Nat) :
    (ps.map fun p ↦ concat (p.parts.drop common.length)).any
        (endsAt text (endsAll text common places) i) = ps.any (endsAt text places i) := by
  rw [List.any_map, Bool.eq_iff_iff, List.any_eq_true, List.any_eq_true]
  refine exists_congr fun p ↦ and_congr_right fun hp ↦ ?_
  rw [Function.comp_apply, endsAt, endsAt, ends_eq_of_parts_prefix text (h p hp)]

/-- A choice in normal form fits what any of its patterns fits, however often something is put in
front of it. -/
theorem endsAt_alternationWithin (fuel : Nat) (ps : List Pattern) {places : Places}
    (h : places.length = text.length + 1) (i : Nat) :
    (alternationWithin fuel ps).endsAt text places i = ps.any (endsAt text places i) := by
  have flattened (ps : List Pattern) {places : Places} (h : places.length = text.length + 1) :
      ps.any (endsAt text places i) = (ps.flatMap branches).any (endsAt text places i) := by
    rw [List.any_flatMap]
    exact List.any_congr rfl fun p ↦ (any_endsAt_branches text h i p).symm
  fun_induction alternationWithin fuel ps generalizing places with
  | case1 fuel ps hnone =>
    rw [flattened ps h, hnone]
    exact has_nothing text places i
  | case2 fuel ps p hone => rw [flattened ps h, hone, List.any_cons, List.any_nil, Bool.or_false]
  | case3 fuel ps set hnotNone hnotOne hset =>
    rw [flattened ps h, any_endsAt_of_commonSet? text hset, endsAt, ends_ofSet]
  | case4 ps fuel first more hnotNone hnotOne hset hcommon rest =>
    rename_i ih
    have hstart (p : Pattern) (hp : p ∈ ps.flatMap branches) : first :: more <+: p.parts :=
      hcommon ▸ commonStart_prefix hp
    rw [flattened ps h, ← any_endsAt_of_common text hstart, endsAt, ends_concat, endsAll_append]
    exact ih (length_endsAll text _ h)
  | case5 fuel ps hnotNone hnotOne hset hcommon =>
    rw [flattened ps h, endsAt_ofBranches text h]

/-- A choice in normal form fits what any of its patterns fits. -/
theorem endsAt_alternation (ps : List Pattern) {places : Places}
    (h : places.length = text.length + 1) (i : Nat) :
    (alternation ps).endsAt text places i = ps.any (endsAt text places i) :=
  endsAt_alternationWithin text _ ps h i

/-- A choice in normal form occurs in the texts in which one of its patterns does. -/
theorem occursIn_alternation (ps : List Pattern) (text : String) :
    (alternation ps).occursIn text = ps.any (·.occursIn text) := by
  rw [Bool.eq_iff_iff, occursIn, Places.any_id_iff, List.any_eq_true]
  simp only [occursIn, Places.any_id_iff]
  constructor
  · rintro ⟨i, hi⟩
    have hany := (endsAt_alternation text.toList ps List.length_replicate i).symm.trans hi
    obtain ⟨p, hp, hends⟩ := List.any_eq_true.mp hany
    exact ⟨p, hp, i, hends⟩
  · rintro ⟨p, hp, i, hends⟩
    have hany : ps.any (endsAt text.toList _ i) = true := List.any_eq_true.mpr ⟨p, hp, hends⟩
    exact ⟨i, (endsAt_alternation text.toList ps List.length_replicate i).trans hany⟩

/-! ## Repetitions -/

/-- A step that does not change some places does not change them when it is repeated. -/
theorem repeated_of_fixed {step : Places → Places} {places : Places} (h : step places = places)
    (count : Nat) : repeated step count places = places := by
  cases count with
  | zero => rfl
  | succ count => rw [repeated, if_pos h]

/-- Whether a step over some number of places takes away those that are not in a mask. -/
structure Masks (n : Nat) (step : Places → Places) (mask : Nat → Bool) : Prop where
  keepsNumber : KeepsNumber n step
  has_eq : ∀ places : Places, places.length = n → ∀ i, (step places).has i = (places.has i && mask i)

section

variable {n : Nat} {step : Places → Places} {mask : Nat → Bool} (hmask : Masks n step mask)

include hmask

/-- A step that takes places away takes away the same however often it is repeated. -/
theorem Masks.repeated_eq (count : Nat) {places : Places} (h : places.length = n) :
    repeated step count places = if count = 0 then places else step places := by
  have hnext := hmask.keepsNumber places h
  cases count with
  | zero => rfl
  | succ count =>
    have hfixed : step (step places) = step places := by
      refine Places.ext_has ((hmask.keepsNumber _ hnext).trans hnext.symm) fun i ↦ ?_
      rw [hmask.has_eq _ hnext, hmask.has_eq _ h, Bool.and_assoc, Bool.and_self]
    rw [repeated, repeated_of_fixed hfixed, if_neg (Nat.succ_ne_zero count)]
    split
    · next hsame => exact hsame.symm
    · rfl

/-- A step that takes places away spreads to no others. -/
theorem Masks.spread_eq (count : Nat) {places : Places} (h : places.length = n) :
    spread step count places places = places := by
  cases count with
  | zero => rfl
  | succ count =>
    let fresh : Places := (step places).zipWith (fun there known ↦ there && !known) places
    have hfresh (i : Nat) : fresh.has i = false := by
      rw [Places.has_zipWith rfl ((hmask.keepsNumber _ h).trans h.symm), hmask.has_eq _ h]
      cases places.has i <;> simp
    have hnone : ¬ fresh.any id = true := by
      rw [Places.any_id_iff]
      rintro ⟨i, hi⟩
      exact ne_true_of_eq_false (hfresh i) hi
    exact if_neg hnone

end

/-- A pattern that takes places away is repeated by taking them away once. -/
theorem ends_times_of_masks {body : Pattern} {mask : Nat → Bool}
    (hmask : Masks (text.length + 1) (body.ends text) mask) (least : Nat) (most : Option Nat)
    (greedy : Bool) {places : Places} (h : places.length = text.length + 1) :
    (times body least most greedy).ends text places =
      if least = 0 then places else body.ends text places := by
  rw [← hmask.repeated_eq least h]
  exact hmask.spread_eq _ (length_repeated hmask.keepsNumber least h)

/-- A pattern that fits nothing but the piece without characters takes places away. -/
theorem exists_masks_of_isEmptyOnly {p : Pattern} (hp : p.isEmptyOnly = true) :
    ∃ mask, Masks (text.length + 1) (p.ends text) mask := by
  suffices hhas : ∃ mask : Nat → Bool, ∀ places : Places, places.length = text.length + 1 →
      ∀ i, (p.ends text places).has i = (places.has i && mask i) by
    obtain ⟨mask, hmask⟩ := hhas
    exact ⟨mask, fun _ ↦ length_ends text p, hmask⟩
  induction p with
  | empty => exact ⟨fun _ ↦ true, fun places h i ↦ (Bool.and_true _).symm⟩
  | literal cs => cases hp
  | chars set asciiOnly => cases hp
  | anchor a =>
    refine ⟨fun i ↦ (surroundings text)[i]?.any fun beside ↦ a.holds beside.1 beside.2,
      fun places h i ↦ ?_⟩
    simp only [ends, Places.has, heldPlaces, List.getD_eq_getElem?_getD, List.getElem?_zipWith]
    cases places[i]? <;> cases (surroundings text)[i]? <;> simp
  | seq first second ihFirst ihSecond =>
    rw [isEmptyOnly, Bool.and_eq_true] at hp
    obtain ⟨maskFirst, hfirst⟩ := ihFirst hp.1
    obtain ⟨maskSecond, hsecond⟩ := ihSecond hp.2
    refine ⟨fun i ↦ maskFirst i && maskSecond i, fun places h i ↦ ?_⟩
    rw [ends, ← Bool.and_assoc, ← hfirst places h, hsecond _ (length_ends text first h)]
  | either left right ihLeft ihRight =>
    rw [isEmptyOnly, Bool.and_eq_true] at hp
    obtain ⟨maskLeft, hleft⟩ := ihLeft hp.1
    obtain ⟨maskRight, hright⟩ := ihRight hp.2
    refine ⟨fun i ↦ maskLeft i || maskRight i, fun places h i ↦ ?_⟩
    rw [Bool.and_or_distrib_left, ← hleft places h, ← hright places h]
    exact endsAt_either text left right h i
  | times body least most greedy ih =>
    rw [isEmptyOnly, Bool.and_eq_true] at hp
    obtain ⟨mask, hmask⟩ := ih hp.1
    have hbody : Masks (text.length + 1) (body.ends text) mask :=
      ⟨fun _ ↦ length_ends text body, hmask⟩
    refine ⟨fun i ↦ decide (least = 0) || mask i, fun places h i ↦ ?_⟩
    rw [ends_times_of_masks text hbody least most greedy h]
    split
    · next hzero => simp [hzero]
    · next hpositive => simp only [hpositive, decide_false, Bool.false_or, hmask places h]
  | group number body ih => exact ih hp

/-- A repetition of one time fits what its body fits. -/
theorem ends_times_one (body : Pattern) (greedy : Bool) (places : Places) :
    (times body 1 (some 1) greedy).ends text places = body.ends text places := by
  simp only [ends, repeated, spread, Nat.sub_self, Nat.zero_min]
  split
  · next hsame => exact hsame.symm
  · rfl

/-- A repetition in normal form fits what the repetition fits. -/
theorem ends_repetition (body : Pattern) (least : Nat) (most : Option Nat) (greedy : Bool)
    {places : Places} (h : places.length = text.length + 1) :
    (body.repetition least most greedy).ends text places =
      (times body least most greedy).ends text places := by
  unfold repetition
  cases hbody : body.isEmptyOnly with
  | false =>
    simp only [Bool.false_eq_true, if_false]
    split
    · rfl
    · exact (ends_times_one text body greedy places).symm
    · rfl
  | true =>
    obtain ⟨mask, hmask⟩ := exists_masks_of_isEmptyOnly text hbody
    rw [ends_times_of_masks text hmask least most greedy h]
    simp only [if_true]
    split
    · next hleast hmost =>
      rw [if_pos (by omega)]
      rfl
    · next hleast hmost => rw [if_neg (by omega)]
    · rw [ends_times_of_masks text hmask _ _ _ h]
      simp only [Nat.min_eq_zero_iff, Nat.one_ne_zero, or_false]

/-! ## The normal form of a pattern -/

/-- A pattern brought to normal form, from its smallest parts on. -/
def normal : Pattern → Pattern
  | .empty => .empty
  | .literal cs => .literal cs
  | .chars set asciiOnly => ofSet asciiOnly set
  | .anchor a => .anchor a
  | .seq first second => concat [first.normal, second.normal]
  | .either left right => alternation [left.normal, right.normal]
  | .times body least most greedy => body.normal.repetition least most greedy
  | .group number body => .group number body.normal

/-- The normal form can end where the pattern can. -/
theorem ends_normal (p : Pattern) {places : Places} (h : places.length = text.length + 1) :
    p.normal.ends text places = p.ends text places := by
  induction p generalizing places with
  | empty => rfl
  | literal cs => rfl
  | chars set asciiOnly => exact ends_ofSet text asciiOnly set places
  | anchor a => rfl
  | seq first second ihFirst ihSecond =>
    calc (concat [first.normal, second.normal]).ends text places
      _ = second.normal.ends text (first.normal.ends text places) := ends_concat text _ places
      _ = second.ends text (first.ends text places) := by
        rw [ihFirst h, ihSecond (length_ends text first h)]
  | either left right ihLeft ihRight =>
    refine Places.ext_has ((length_ends text _ h).trans (length_ends text _ h).symm) fun i ↦ ?_
    calc (alternation [left.normal, right.normal]).endsAt text places i
      _ = (left.normal.endsAt text places i || right.normal.endsAt text places i) := by
        rw [endsAt_alternation text _ h, List.any_cons, List.any_cons, List.any_nil, Bool.or_false]
      _ = (left.endsAt text places i || right.endsAt text places i) := by
        rw [endsAt, endsAt, ihLeft h, ihRight h]
        rfl
      _ = (Pattern.either left right).endsAt text places i :=
        (endsAt_either text left right h i).symm
  | times body least most greedy ih =>
    calc (body.normal.repetition least most greedy).ends text places
      _ = (times body.normal least most greedy).ends text places :=
        ends_repetition text body.normal least most greedy h
      _ = (times body least most greedy).ends text places :=
        ends_times_congr text (fun _ ↦ ih) least most greedy h
  | group number body ih => exact ih h

/-- A pattern in normal form occurs in the texts in which the pattern occurs. -/
theorem occursIn_normal (p : Pattern) (text : String) :
    p.normal.occursIn text = p.occursIn text := by
  rw [occursIn, occursIn, ends_normal text.toList p List.length_replicate]

end Pattern

/-- A filter shows the same lines when its pattern is brought to normal form. -/
theorem Log.Filter.shows_normal (filter : Log.Filter) (level : Log.Level)
    (target message : String) :
    { filter with pattern := filter.pattern.map Pattern.normal }.shows level target message =
      filter.shows level target message := by
  have hoccurs : (filter.pattern.map Pattern.normal).all (·.occursIn message) =
      filter.pattern.all (·.occursIn message) := by
    cases filter.pattern with
    | none => rfl
    | some p => exact p.occursIn_normal message
  simp only [shows, deciding?, hoccurs]

end FirmwareSeal
