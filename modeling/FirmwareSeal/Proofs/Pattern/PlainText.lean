import FirmwareSeal.Proofs.Pattern.Symbols
import Mathlib

/-!
# Plain words as patterns

A literal occurs in the texts that have it as a piece. Words in which no character has a meaning of
its own are read letter by letter, and with bars between them as a choice; so the pattern occurs in
the texts that have one of the words as a piece (`occursIn_of_words`). A single word is read as a
literal, and nothing but its length can keep it from being accepted (`ofText_plain`). A filter that
ends in plain words shows the lines whose messages have one of them as a piece.
-/

namespace FirmwareSeal

namespace Pattern

/-! ## Literals -/

/-- A literal can end behind the pieces that are its text and begin where it may begin. -/
theorem has_ends_literal (text cs : List Char) (places : Places) (i : Nat) :
    ((literal cs).ends text places).has i = true ↔
      ∃ k, k + cs.length = i ∧ places.has k = true ∧ cs <+: text.drop k := by
  induction cs generalizing places with
  | nil => simp [ends]
  | cons c cs ih =>
    have hfirst (k : Nat) : (c :: cs) <+: text.drop k ↔
        text[k]?.any (CharSet.single c).contains = true ∧ cs <+: text.drop (k + 1) := by
      cases hk : text[k]? with
      | none =>
        rw [List.drop_eq_nil_of_le (List.getElem?_eq_none_iff.mp hk)]
        simp
      | some d =>
        obtain ⟨hlt, rfl⟩ := List.getElem?_eq_some_iff.mp hk
        rw [List.drop_eq_getElem_cons hlt, List.cons_prefix_cons, Option.any_some, contains_single,
          beq_iff_eq]
    calc ((literal (c :: cs)).ends text places).has i = true
      _ ↔ ∃ k, k + cs.length = i ∧ Places.has (afterChar (.single c) text places) k = true ∧
          cs <+: text.drop k := ih _
      _ ↔ ∃ k, (k + 1) + cs.length = i ∧ places.has k = true ∧ (c :: cs) <+: text.drop k := by
        constructor
        · rintro ⟨_ | k, hlength, hhas, hrest⟩
          · cases hhas
          · rw [has_afterChar_succ, Bool.and_eq_true] at hhas
            exact ⟨k, hlength, hhas.1, (hfirst k).mpr ⟨hhas.2, hrest⟩⟩
        · rintro ⟨k, hlength, hhas, hpiece⟩
          obtain ⟨hchar, hrest⟩ := (hfirst k).mp hpiece
          refine ⟨k + 1, hlength, ?_, hrest⟩
          rw [has_afterChar_succ, hhas, hchar]
          rfl
      _ ↔ ∃ k, k + (c :: cs).length = i ∧ places.has k = true ∧ (c :: cs) <+: text.drop k := by
        simp only [List.length_cons, Nat.add_right_comm, Nat.add_assoc]

/-- A literal occurs in the texts that have it as a piece. -/
theorem occursIn_literal (cs : List Char) (text : String) :
    (literal cs).occursIn text = true ↔ cs <:+: text.toList := by
  rw [occursIn, Places.any_id_iff]
  simp only [has_ends_literal]
  constructor
  · rintro ⟨i, k, hlength, hhas, hpiece⟩
    exact hpiece.isInfix.trans (List.drop_suffix k _).isInfix
  · rintro ⟨before, after, hpieces⟩
    refine ⟨_, before.length, rfl, ?_, after, ?_⟩
    · have hle : before.length ≤ text.toList.length := by
        rw [← hpieces, List.length_append, List.length_append]
        omega
      rw [Places.has, List.getD_eq_getElem _ _ (by rw [List.length_replicate]; omega),
        List.getElem_replicate]
    · rw [← hpieces, List.append_assoc, List.drop_left]

/-! ## Texts that are read as themselves -/

/-- The characters that have a meaning of their own in patterns. -/
def meaningful : List Char :=
  ['(', ')', '|', '[', '?', '*', '+', '\x7b', '\\', '.', '^', '$']

/-- The pattern of one character is this character. -/
theorem ofSet_single (asciiOnly : Bool) (c : Char) :
    ofSet asciiOnly (.single c) = .literal [c] := by
  have hranges : (CharSet.single c).canonical.ranges = [(c.toNat, c.toNat)] := by
    have htrimmed : CharSet.trimmed (c.toNat, c.toNat) = some (c.toNat, c.toNat) := by
      have hoff : ¬ (0xd800 ≤ c.toNat ∧ c.toNat ≤ 0xdfff) := by
        have := CharSet.toNat_lt_or_lt c
        omega
      simp [CharSet.trimmed, hoff]
    simp [CharSet.canonical, CharSet.single, htrimmed, CharSet.joinRange]
  have hvalid : c.toNat.isValidChar := c.valid
  unfold ofSet
  simp only [hranges, hvalid, and_self, if_true, Char.ofNat_toNat]

/-- A plain character is read as itself. -/
theorem step_of_plain {d : Draft} {c : Char} {rest : List Char} (hc : c ∉ meaningful)
    (hrest : d.rest = c :: rest) (ho : d.options = .standard) :
    d.step = .ok (d.push (.leaf (.literal [c])) rest) := by
  have hread : (Symbol.char c false).toPattern d.options = .ok (.literal [c]) := by
    rw [ho, ← ofSet_single false c]
    rfl
  unfold Draft.step
  split
  all_goals
    rename_i h
    cases hrest.symm.trans h
  -- All other cases are about one character that has a meaning.
  any_goals (refine absurd ?_ hc; decide)
  rw [hread]
  rfl

/-- A character as a part of a pattern. -/
def letter (c : Char) : Part := .leaf (.literal [c])

/-- A draft with some characters more. -/
def withLetters (d : Draft) (cs tail : List Char) : Draft :=
  { d with rest := tail, parts := (cs.map letter).reverse ++ d.parts }

/-- Plain characters in front of others are read one after the other. -/
theorem finish_append_of_plain {cs tail : List Char} (hcs : ∀ c ∈ cs, c ∉ meaningful) {d : Draft}
    (hrest : d.rest = cs ++ tail) (ho : d.options = .standard) (n : Nat) :
    d.finish (cs.length + n) = (withLetters d cs tail).finish n := by
  induction cs generalizing d with
  | nil =>
    obtain rfl : d.rest = tail := hrest
    rw [List.length_nil, Nat.zero_add]
    rfl
  | cons c cs ih =>
    have hskip : d.options.skip d.rest = c :: (cs ++ tail) := by rw [ho, hrest]; rfl
    have hstep : { d with rest := c :: (cs ++ tail) }.step = .ok (d.push (letter c) (cs ++ tail)) :=
      step_of_plain (hcs c List.mem_cons_self) rfl ho
    have hnext := ih (fun c hc ↦ hcs c (List.mem_cons_of_mem _ hc))
      (d := d.push (letter c) (cs ++ tail)) rfl ho
    rw [List.length_cons, Nat.add_right_comm, Draft.finish]
    simp only [hskip, hstep, bind, Except.bind]
    rw [hnext, withLetters, withLetters, List.map_cons, List.reverse_cons, List.append_assoc]
    rfl

/-- A draft at the beginning of the next alternative. -/
def withBranch (d : Draft) (tail : List Char) : Draft :=
  { d with rest := tail, parts := [], branches := d.lastBranch :: d.branches }

/-- A bar ends an alternative. -/
theorem finish_of_bar {d : Draft} {tail : List Char} (hrest : d.rest = '|' :: tail)
    (ho : d.options = .standard) (n : Nat) :
    d.finish (n + 1) = (withBranch d tail).finish n := by
  have hskip : d.options.skip d.rest = '|' :: tail := by rw [ho, hrest]; rfl
  rw [Draft.finish]
  simp only [hskip]
  rfl

/-- At the end of the text the content is all that was read, if no group is open. -/
theorem finish_of_end {d : Draft} (hrest : d.rest = []) (ho : d.options = .standard)
    (hgroups : d.groups = []) (n : Nat) : d.finish (n + 1) = .ok d.content := by
  have hskip : d.options.skip d.rest = [] := by rw [ho, hrest]; rfl
  simp only [Draft.finish, hskip, hgroups, List.isEmpty_nil, if_true]

/-- A plain word as a part of a pattern. -/
def wordPart (cs : List Char) : Part := .combine concat (cs.map letter)

/-- The characters that were read since the last bar are one word. -/
theorem lastBranch_withLetters {d : Draft} (hparts : d.parts = []) (cs tail : List Char) :
    (withLetters d cs tail).lastBranch = wordPart cs := by
  simp only [withLetters, Draft.lastBranch, wordPart, hparts, List.append_nil,
    List.reverse_reverse]

/-- Plain words between bars are read as a choice between them. -/
theorem finish_of_words {word : List Char} {words : List (List Char)}
    (hplain : ∀ w ∈ word :: words, ∀ c ∈ w, c ∉ meaningful) {d : Draft}
    (hrest : d.rest = ['|'].intercalate (word :: words)) (ho : d.options = .standard)
    (hgroups : d.groups = []) (hparts : d.parts = []) {n : Nat} (hn : d.rest.length < n) :
    d.finish n =
      .ok (.combine alternation (d.branches.reverse ++ (word :: words).map wordPart)) := by
  induction words generalizing word d n with
  | nil =>
    obtain ⟨hword, -⟩ := List.forall_mem_cons.mp hplain
    have hend : d.rest = word ++ [] := by rw [hrest, List.append_nil, List.intercalate_singleton]
    obtain ⟨n, rfl⟩ : ∃ k, n = word.length + (k + 1) :=
      ⟨n - word.length - 1, by rw [hend, List.append_nil] at hn; omega⟩
    rw [finish_append_of_plain hword hend ho,
      finish_of_end (d := withLetters d word []) rfl ho hgroups, Draft.content,
      lastBranch_withLetters hparts, List.reverse_cons]
    rfl
  | cons next words ih =>
    obtain ⟨hword, hwords⟩ := List.forall_mem_cons.mp hplain
    have hbar : d.rest = word ++ '|' :: ['|'].intercalate (next :: words) := by
      rw [hrest, List.intercalate_cons_cons, List.append_assoc]
      rfl
    rw [hbar, List.length_append, List.length_cons] at hn
    obtain ⟨n, rfl⟩ : ∃ k, n = word.length + (k + 1) := ⟨n - word.length - 1, by omega⟩
    let after := withLetters d word ('|' :: ['|'].intercalate (next :: words))
    have hnext := ih (d := withBranch after (['|'].intercalate (next :: words))) hwords rfl ho
      hgroups rfl (Nat.lt_of_succ_lt_succ (Nat.lt_of_add_lt_add_left hn))
    rw [finish_append_of_plain hword hbar ho, finish_of_bar (d := after) rfl ho, hnext, withBranch,
      lastBranch_withLetters hparts, List.reverse_cons, List.append_assoc]
    rfl

/-- A text that is read as a pattern is read to its end, and nothing keeps the pattern from being
used. -/
theorem exists_part_of_ofText {text : String} {p : Pattern} (h : ofText text = .ok p) :
    ∃ part, (Draft.ofText text.toList).finish (text.toList.length + 1) = .ok part ∧
      part.pattern = p := by
  unfold ofText at h
  split at h
  · cases h
  · next part hpart =>
    split at h
    · cases h
    · split at h
      · cases h
      · exact ⟨part, hpart, Except.ok.inj h⟩

/-- A word as a part fits what the literal fits. -/
theorem occursIn_wordPart (cs : List Char) (text : String) :
    (wordPart cs).pattern.occursIn text = (literal cs).occursIn text := by
  have hends (places : Places) : (wordPart cs).pattern.ends text.toList places =
      (literal cs).ends text.toList places := by
    rw [wordPart, Part.combine, ends_concat, List.map_map, endsAll, List.foldl_map]
    rfl
  rw [occursIn, occursIn, hends]

/-- Plain words between bars occur, if they are accepted as a pattern, in the texts that have one of
them as a piece. -/
theorem occursIn_of_words {words : List String} (hne : words ≠ [])
    (hplain : ∀ w ∈ words, ∀ c ∈ w.toList, c ∉ meaningful) {p : Pattern}
    (h : ofText ("|".intercalate words) = .ok p) (text : String) :
    p.occursIn text = true ↔ ∃ w ∈ words, w.toList <:+: text.toList := by
  obtain ⟨word, words, rfl⟩ := List.exists_cons_of_ne_nil hne
  obtain ⟨part, hpart, rfl⟩ := exists_part_of_ofText h
  have hlists : ∀ w ∈ word.toList :: words.map String.toList, ∀ c ∈ w, c ∉ meaningful := by
    rw [← List.map_cons]
    simpa using hplain
  have hread := finish_of_words hlists (d := Draft.ofText ("|".intercalate (word :: words)).toList)
    (String.toList_intercalate) rfl rfl rfl (Nat.lt_succ_self _)
  obtain rfl := Except.ok.inj (hpart.symm.trans hread)
  calc (alternation _).occursIn text = true
    _ ↔ ∃ w ∈ word :: words, (wordPart w.toList).pattern.occursIn text = true := by
      rw [occursIn_alternation, List.any_eq_true]
      simp [Draft.ofText]
    _ ↔ ∃ w ∈ word :: words, w.toList <:+: text.toList := by
      simp only [occursIn_wordPart, occursIn_literal]

/-! ## What keeps a word from being accepted -/

/-- Literals of one character each, one after the other, are one literal. -/
theorem concat_letters {cs : List Char} (hcs : cs ≠ []) :
    concat (cs.map fun c ↦ .literal [c]) = .literal cs := by
  have hjoined : ((cs.map fun c ↦ Pattern.literal [c]).flatMap parts).foldr consPart [] =
      [.literal cs] := by
    induction cs with
    | nil => exact absurd rfl hcs
    | cons c cs ih =>
      cases cs with
      | nil => rfl
      | cons d cs =>
        rw [List.map_cons, List.flatMap_cons, List.foldr_append, ih (List.cons_ne_nil d cs)]
        rfl
  rw [concat, hjoined]
  rfl

/-- The choice between one literal and nothing else is the literal. -/
theorem alternation_literal (cs : List Char) : alternation [.literal cs] = .literal cs := by
  unfold alternation alternationWithin
  rfl

/-- A word is one deep at most. -/
theorem depth_wordPart_le (cs : List Char) : (wordPart cs).depth ≤ 1 := by
  have hletters : (cs.map letter).foldl (fun d p ↦ max d p.depth) 0 = 0 := by
    induction cs with
    | nil => rfl
    | cons c cs ih => exact ih
  simp only [wordPart, Part.combine, hletters]
  split <;> omega

/-- A plain word that is not empty is read as one literal, no deeper than is accepted. -/
theorem finish_of_word {cs : List Char} (hplain : ∀ c ∈ cs, c ∉ meaningful) (hcs : cs ≠ []) :
    ∃ part, (Draft.ofText cs).finish (cs.length + 1) = .ok part ∧ part.pattern = .literal cs ∧
      part.depth ≤ depthLimit := by
  have hword : (wordPart cs).pattern = .literal cs := by
    rw [wordPart, Part.combine, List.map_map, ← concat_letters hcs]
    rfl
  refine ⟨_, finish_of_words (List.forall_mem_singleton.mpr hplain) (d := Draft.ofText cs)
    List.intercalate_singleton.symm rfl rfl rfl (Nat.lt_succ_self _), ?_, ?_⟩
  · calc alternation [(wordPart cs).pattern]
      _ = alternation [.literal cs] := by rw [hword]
      _ = .literal cs := alternation_literal cs
  · calc max 0 (wordPart cs).depth + 0
      _ ≤ 1 := by have := depth_wordPart_le cs; omega
      _ ≤ depthLimit := by decide

/-- The bytes of a literal are read in some order. -/
theorem length_readBytes (backwards : Bool) (cs : List Char) :
    (readBytes backwards cs).length = (cs.flatMap String.utf8EncodeChar).length := by
  cases backwards with
  | false => rfl
  | true => simp only [readBytes, if_true, List.length_flatMap, List.length_reverse]

/-- The machine of a literal that reads forwards has a state for each byte, and six more. -/
theorem size_machine_literal (cs : List Char) :
    ((literal cs).machine false).size =
      32 * ((cs.flatMap String.utf8EncodeChar).length + 6) + 16 := by
  rw [← length_readBytes false]
  simp [machine, beginsAtStart, fragment, Role.close, Fragment.linked, Machine.size, Machine.add,
    Machine.linkSize, Machine.rangeSize]
  omega

/-- The machine of a literal that reads backwards is no larger than the one that reads forwards. -/
theorem size_machine_mirrored_literal_le (cs : List Char) :
    ((literal cs).mirrored.machine true).size ≤ ((literal cs).machine false).size := by
  have hbytes : (readBytes true cs.reverse).length = (cs.flatMap String.utf8EncodeChar).length := by
    rw [length_readBytes, List.length_flatMap, List.length_flatMap, List.map_reverse,
      List.sum_reverse_nat]
  rw [size_machine_literal, ← hbytes]
  simp [mirrored, mirroredBefore, followedBy, machine, beginsAtStart, fragment, Role.close,
    Fragment.linked, Machine.size, Machine.add, Machine.linkSize, Machine.rangeSize]
  omega

/-- A text has as many bytes as its characters have. -/
theorem utf8ByteSize_eq (text : String) :
    text.utf8ByteSize = (text.toList.flatMap String.utf8EncodeChar).length := by
  conv_lhs => rw [← String.ofList_toList (s := text)]
  rw [← String.size_toByteArray, String.toByteArray_ofList, List.utf8Encode]
  simp

/-- A plain text that is not empty is read as itself, unless its machine is too large. -/
theorem ofText_plain {text : String} (hplain : ∀ c ∈ text.toList, c ∉ meaningful)
    (hne : text.toList ≠ []) :
    ofText text =
      if Machine.sizeLimit < 32 * (text.utf8ByteSize + 6) + 16 then
        .error (.tooLarge Machine.sizeLimit)
      else .ok (.literal text.toList) := by
  obtain ⟨part, hfinish, hpattern, hdepth⟩ :=
    finish_of_word hplain hne
  have hsize : ((literal text.toList).machine false).isTooLarge = true ↔
      Machine.sizeLimit < 32 * (text.utf8ByteSize + 6) + 16 := by
    rw [Machine.isTooLarge, size_machine_literal, utf8ByteSize_eq, decide_eq_true_eq]
  have hmirrored : ((literal text.toList).mirrored.machine true).isTooLarge = true →
      ((literal text.toList).machine false).isTooLarge = true := by
    simp only [Machine.isTooLarge, decide_eq_true_eq]
    have := size_machine_mirrored_literal_le text.toList
    omega
  have hwords : (literal text.toList).asksForWords = false := rfl
  rw [ofText, hfinish]
  simp only [hpattern, Nat.not_lt.mpr hdepth, if_false, obstacle?, hwords, Bool.false_eq_true]
  by_cases hlarge : Machine.sizeLimit < 32 * (text.utf8ByteSize + 6) + 16
  · rw [if_pos hlarge, if_pos (hsize.mpr hlarge)]
  · rw [if_neg hlarge, if_neg (mt hsize.mp hlarge), if_neg (mt (hsize.mp ∘ hmirrored) hlarge)]

/-- A plain text whose machine is not too large is accepted as a pattern. -/
theorem exists_ofText_of_plain {text : String} (hplain : ∀ c ∈ text.toList, c ∉ meaningful)
    (hsize : 32 * (text.utf8ByteSize + 6) + 16 ≤ Machine.sizeLimit) :
    ∃ p, ofText text = .ok p := by
  by_cases hne : text.toList = []
  · obtain rfl : text = "" := String.toList_eq_nil_iff.mp hne
    exact ⟨.empty, rfl⟩
  · exact ⟨.literal text.toList, (ofText_plain hplain hne).trans (if_neg (Nat.not_lt.mpr hsize))⟩

end Pattern

/-! ## Filters -/

namespace Log.Filter

/-- A pattern that has to occur leaves of the lines that are shown without it those in whose
messages it occurs. -/
theorem shows_ofDirectives_some (directives : List Directive) (p : Pattern) (level : Level)
    (target message : String) :
    (ofDirectives directives (some p)).shows level target message =
      ((ofDirectives directives none).shows level target message && p.occursIn message) := by
  have hdeciding : (ofDirectives directives (some p)).deciding? target =
      (ofDirectives directives none).deciding? target := by
    cases directives <;> rfl
  have hpattern (pattern : Option Pattern) :
      (ofDirectives directives pattern).pattern = pattern := by
    cases directives <;> rfl
  rw [shows, shows, hdeciding, hpattern, hpattern]
  split
  · rw [Option.all_some, Option.all_none, Bool.and_true]
  · rfl

/-- The directives and the pattern of a filter are on the two sides of its slash. -/
theorem ofText_append {list text : String} (hlist : '/' ∉ list.toList) (htext : '/' ∉ text.toList)
    {p : Pattern} (hp : Pattern.ofText text = .ok p) :
    ∃ directives, (ofText list).1 = ofDirectives directives none ∧
      (ofText (list ++ "/" ++ text)).1 = ofDirectives directives (some p) := by
  have hjoined : (list ++ "/" ++ text).toList = ['/'].intercalate [list.toList, text.toList] := by
    simp [List.intercalate]
  have hsplit : (list ++ "/" ++ text).toList.splitOn '/' = [list.toList, text.toList] := by
    rw [hjoined]
    refine List.splitOn_intercalate _ ?_ (List.cons_ne_nil _ _)
    simpa using ⟨hlist, htext⟩
  refine ⟨(readWords (words list.toList)).1, ?_, ?_⟩
  · rw [ofText, List.splitOn_eq_singleton hlist]
  · rw [ofText, hsplit]
    simp only [String.ofList_toList, hp]

/-- A character of words between bars is a bar or is in one of the words. -/
theorem eq_or_exists_mem_of_mem_intercalate {bar c : Char} {words : List (List Char)}
    (h : c ∈ [bar].intercalate words) : c = bar ∨ ∃ w ∈ words, c ∈ w := by
  induction words with
  | nil => cases h
  | cons word words ih =>
    cases words with
    | nil => exact .inr ⟨word, List.mem_cons_self, by rwa [List.intercalate_singleton] at h⟩
    | cons next words =>
      rw [List.intercalate_cons_cons, List.append_assoc, List.mem_append, List.mem_append,
        List.mem_singleton] at h
      rcases h with h | h | h
      · exact .inr ⟨word, List.mem_cons_self, h⟩
      · exact .inl h
      · exact (ih h).imp_right fun ⟨w, hw, hc⟩ ↦ ⟨w, List.mem_cons_of_mem _ hw, hc⟩

/-- A filter with plain words between bars behind a slash shows, if the words are accepted as a
pattern, those lines of the filter without them whose messages have one of the words as a piece. -/
theorem shows_ofText_of_words {list : String} {words : List String} (hlist : '/' ∉ list.toList)
    (hne : words ≠ []) (hwords : ∀ w ∈ words, '/' ∉ w.toList)
    (hplain : ∀ w ∈ words, ∀ c ∈ w.toList, c ∉ Pattern.meaningful) {p : Pattern}
    (hp : Pattern.ofText ("|".intercalate words) = .ok p) (level : Level)
    (target message : String) :
    (ofText (list ++ "/" ++ "|".intercalate words)).1.shows level target message = true ↔
      (ofText list).1.shows level target message = true ∧
        ∃ w ∈ words, w.toList <:+: message.toList := by
  have hslash : '/' ∉ ("|".intercalate words).toList := by
    rw [String.toList_intercalate]
    intro hmem
    rcases eq_or_exists_mem_of_mem_intercalate hmem with hbar | ⟨w, hw, hc⟩
    · exact absurd hbar (by decide)
    · obtain ⟨word, hword, rfl⟩ := List.mem_map.mp hw
      exact hwords word hword hc
  obtain ⟨directives, hwithout, hwith⟩ := ofText_append hlist hslash hp
  rw [hwith, hwithout, shows_ofDirectives_some, Bool.and_eq_true,
    Pattern.occursIn_of_words hne hplain hp]

/-- A filter with a plain text behind a slash shows those lines of the filter without it whose
messages have the text as a piece, unless the text is too long. -/
theorem shows_ofText_of_plain {list text : String} (hlist : '/' ∉ list.toList)
    (htext : '/' ∉ text.toList) (hplain : ∀ c ∈ text.toList, c ∉ Pattern.meaningful)
    (hsize : 32 * (text.utf8ByteSize + 6) + 16 ≤ Machine.sizeLimit) (level : Level)
    (target message : String) :
    (ofText (list ++ "/" ++ text)).1.shows level target message = true ↔
      (ofText list).1.shows level target message = true ∧
        text.toList <:+: message.toList := by
  obtain ⟨p, hp⟩ := Pattern.exists_ofText_of_plain hplain hsize
  have hone : "|".intercalate [text] = text := String.intercalate_singleton
  have hwords := shows_ofText_of_words hlist (List.cons_ne_nil text [])
    (List.forall_mem_singleton.mpr htext) (List.forall_mem_singleton.mpr hplain)
    (hone.symm ▸ hp) level target message
  simpa only [hone, List.mem_singleton, exists_eq_left] using hwords

end Log.Filter

end FirmwareSeal
