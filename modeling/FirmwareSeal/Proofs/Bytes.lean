import FirmwareSeal.Bytes.Endian
import Mathlib.Data.List.Basic

/-!
# Pieces and words of joined byte strings

What cutting and reading give on strings that were joined before: equal pieces come back one by
one, and every word of a row of words is read at four times its place. So a string joined from
pieces of one length, or from words, tells what it was joined from.
-/

namespace FirmwareSeal

/-! ## Pieces -/

/-- A full piece in front is cut off first. -/
theorem chunks_append {α : Type} {n : Nat} (hn : 0 < n) {piece : List α}
    (hp : piece.length = n) (rest : List α) :
    chunks n (piece ++ rest) = piece :: chunks n rest := by
  have hne : piece ++ rest ≠ [] := by
    intro h
    have hl := congrArg List.length h
    simp only [List.length_append, List.length_nil] at hl
    omega
  rw [chunks_of_ne_nil hn hne, List.take_left' hp, List.drop_left' hp]

/-- Joined pieces of one length are cut apart again. -/
theorem chunks_flatMap {α β : Type} {n : Nat} (hn : 0 < n) {f : β → List α}
    (hf : ∀ b, (f b).length = n) (bs : List β) : chunks n (bs.flatMap f) = bs.map f := by
  induction bs with
  | nil => exact chunks_nil n
  | cons b bs ih =>
    rw [List.flatMap_cons, chunks_append hn (hf b), ih]
    rfl

/-- There are as many pieces as fit, and one more for a remainder. -/
theorem length_chunks {α : Type} {n : Nat} (hn : 0 < n) (l : List α) :
    (chunks n l).length = (l.length + (n - 1)) / n := by
  fun_induction chunks n l with
  | case1 =>
    rw [List.length_nil, List.length_nil, Nat.zero_add, Nat.div_eq_of_lt (by omega)]
  | case2 a l ih =>
    rw [List.length_cons, ih, List.length_drop, List.length_cons]
    -- A short last piece leaves nothing, so the remainder is cut off at zero.
    by_cases hl : n - 1 ≤ l.length
    · have he : l.length + 1 + (n - 1) = l.length - (n - 1) + (n - 1) + n := by omega
      rw [he, Nat.add_div_right _ hn]
    · have hz : l.length - (n - 1) + (n - 1) = n - 1 := by omega
      rw [hz, Nat.div_eq_of_lt (by omega), eq_comm]
      exact Nat.div_eq_of_lt_le (by omega) (by omega)

/-- A list that has a piece is not empty. -/
theorem ne_nil_of_lt_length_chunks {α : Type} {n i : Nat} {l : List α}
    (h : i < (chunks n l).length) : l ≠ [] := by
  rintro rfl
  rw [chunks_nil] at h
  exact Nat.not_lt_zero i h

/-- The piece at a place starts at that multiple of the length of a full one. -/
theorem getElem_chunks {α : Type} {n : Nat} (hn : 0 < n) (l : List α) (i : Nat)
    (hi : i < (chunks n l).length) : (chunks n l)[i] = (l.drop (n * i)).take n := by
  induction i generalizing l with
  | zero =>
    simp only [chunks_of_ne_nil hn (ne_nil_of_lt_length_chunks hi), List.getElem_cons_zero,
      Nat.mul_zero, List.drop_zero]
  | succ i ih =>
    have hcut := chunks_of_ne_nil hn (ne_nil_of_lt_length_chunks hi)
    simp only [hcut, List.length_cons, Nat.add_lt_add_iff_right] at hi
    simp only [hcut, List.getElem_cons_succ]
    rw [ih (l.drop n) hi, List.drop_drop, Nat.mul_succ, Nat.add_comm]

/-- The pieces of a list, each by its place. -/
theorem chunks_eq_map_range {α : Type} {n : Nat} (hn : 0 < n) (l : List α) :
    chunks n l =
      (List.range ((l.length + (n - 1)) / n)).map fun i ↦ (l.drop (n * i)).take n := by
  apply List.ext_getElem
  · rw [length_chunks hn, List.length_map, List.length_range]
  · intro i hi hj
    rw [getElem_chunks hn, List.getElem_map, List.getElem_range]

/-- Joined pieces of one length tell which pieces they are, if each piece tells what it is of. -/
theorem flatMap_injective {α β : Type} {n : Nat} (hn : 0 < n) {f : β → List α}
    (hlength : ∀ b, (f b).length = n) (hf : Function.Injective f) :
    Function.Injective fun bs : List β ↦ bs.flatMap f := by
  intro bs cs h
  have hpieces := congrArg (chunks n) h
  rw [chunks_flatMap hn hlength, chunks_flatMap hn hlength] at hpieces
  exact List.map_injective_iff.mpr hf hpieces

/-- Padding looks at no more bytes than it keeps. -/
theorem Octets.padded_take (n : Nat) (bytes : Bytes) :
    padded n (bytes.take n) = padded n bytes := by
  apply ext
  have hz : n - min n bytes.length = n - bytes.length := by omega
  rw [toList_padded, toList_padded, List.take_take, Nat.min_self,
    List.length_take, hz]

/-! ## Agreement -/

/-- Lists have the same rest behind a place exactly if they agree from there on. -/
theorem drop_eq_drop_iff {α : Type} (a b : List α) (start : Nat) :
    a.drop start = b.drop start ↔ ∀ k, start ≤ k → a[k]? = b[k]? := by
  constructor
  · intro h k hk
    have hbyte := congrArg (·[k - start]?) h
    simpa only [List.getElem?_drop, Nat.add_sub_cancel' hk] using hbyte
  · intro h
    apply List.ext_getElem?
    intro k
    rw [List.getElem?_drop, List.getElem?_drop]
    exact h (start + k) (Nat.le_add_right start k)

/-- Lists have the same piece at a place exactly if they agree on it. -/
theorem take_drop_eq_take_drop_iff {α : Type} (a b : List α) (start n : Nat) :
    (a.drop start).take n = (b.drop start).take n ↔
      ∀ k, start ≤ k → k < start + n → a[k]? = b[k]? := by
  constructor
  · intro h k hk hend
    have hbyte := congrArg (·[k - start]?) h
    have hin : k - start < n := by omega
    simpa only [List.getElem?_take_of_lt hin, List.getElem?_drop, Nat.add_sub_cancel' hk] using hbyte
  · intro h
    apply List.ext_getElem?
    intro k
    by_cases hk : k < n
    · rw [List.getElem?_take_of_lt hk, List.getElem?_take_of_lt hk, List.getElem?_drop,
        List.getElem?_drop]
      exact h (start + k) (Nat.le_add_right start k) (Nat.add_lt_add_left hk start)
    · rw [List.getElem?_take_eq_none (Nat.le_of_not_lt hk),
        List.getElem?_take_eq_none (Nat.le_of_not_lt hk)]

/-! ## Words -/

/-- Four bytes for each word of a row. -/
theorem length_flatMap_littleWord (ws : List UInt32) :
    (ws.flatMap littleWord).length = 4 * ws.length := by
  induction ws with
  | nil => rfl
  | cons w ws ih =>
    rw [List.flatMap_cons, List.length_append, ih, length_littleWord, List.length_cons]
    omega

/-- Reading past some leading bytes is reading in the rest. -/
theorem wordAt_append_right (front rest : Bytes) (offset : Nat) :
    wordAt (front ++ rest) (front.length + offset) = wordAt rest offset := by
  unfold wordAt
  rw [← List.drop_drop, List.drop_left]

/-- Reading in the front is not disturbed by what follows. -/
theorem wordAt_append_left {front : Bytes} {offset : Nat} (h : offset + 4 ≤ front.length)
    (rest : Bytes) : wordAt (front ++ rest) offset = wordAt front offset := by
  unfold wordAt
  rw [List.drop_append_of_le_length (by omega),
    List.take_append_of_le_length (by rw [List.length_drop]; omega)]

/-- The word at a place of a row is read at four times that place. -/
theorem wordAt_flatMap_littleWord (ws : List UInt32) (rest : Bytes) (i : Nat)
    (hi : i < ws.length) : wordAt (ws.flatMap littleWord ++ rest) (4 * i) = ws[i] := by
  induction ws generalizing i with
  | nil => exact absurd hi (Nat.not_lt_zero i)
  | cons w ws ih =>
    rw [List.flatMap_cons, List.append_assoc]
    cases i with
    | zero => exact wordAt_append List.length_nil w _
    | succ i =>
      have ho : 4 * (i + 1) = (littleWord w).length + 4 * i := by
        rw [length_littleWord]
        omega
      rw [ho, wordAt_append_right, ih i (Nat.lt_of_succ_lt_succ hi)]
      rfl

/-- A row of words tells which words it has. -/
theorem flatMap_littleWord_injective :
    Function.Injective fun ws : List UInt32 ↦ ws.flatMap littleWord :=
  flatMap_injective (by decide) length_littleWord fun _ _ h ↦ littleWord_inj h

/-- Four bytes are what is written for the word that they stand for. -/
theorem littleWord_ofNat_ofLittle {bytes : Bytes} (h : bytes.length = 4) :
    littleWord (UInt32.ofNat (ofLittle bytes)) = bytes := by
  have hwritten : toLittle 4 (ofLittle bytes) = bytes := h ▸ toLittle_ofLittle bytes
  have hlt : ofLittle bytes < UInt32.size := by
    have hread := ofLittle_toLittle 4 (ofLittle bytes)
    rw [hwritten] at hread
    rw [hread]
    exact Nat.mod_lt _ (by decide)
  rw [littleWord, UInt32.toNat_ofNat_of_lt' hlt, hwritten]

/-- A word that was read is written as the bytes it was read from. -/
theorem littleWord_wordAt {bytes : Bytes} {offset : Nat} (h : offset + 4 ≤ bytes.length) :
    littleWord (wordAt bytes offset) = (bytes.drop offset).take 4 := by
  apply littleWord_ofNat_ofLittle
  rw [List.length_take, List.length_drop]
  omega

/-- The words that were read from the first places are written as the bytes in front. -/
theorem flatMap_littleWord_wordAt (bytes : Bytes) (n : Nat) (h : 4 * n ≤ bytes.length) :
    ((List.range n).map fun i ↦ wordAt bytes (4 * i)).flatMap littleWord = bytes.take (4 * n) := by
  induction n with
  | zero => rfl
  | succ n ih =>
    rw [List.range_succ, List.map_append, List.flatMap_append, ih (by omega), Nat.mul_succ,
      List.take_add]
    congr 1
    rw [List.map_singleton, List.flatMap_singleton]
    exact littleWord_wordAt (by omega)

end FirmwareSeal
