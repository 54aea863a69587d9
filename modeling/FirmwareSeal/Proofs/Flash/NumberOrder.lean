import FirmwareSeal.Proofs.Flash.Unpacking
import Mathlib.Algebra.GroupWithZero.Nat
import Mathlib.Data.Fintype.Perm
import Mathlib.Data.List.FinRange
import Mathlib.Data.List.Forall2

/-!
# Unpacking any list of blocks

A list of blocks need not come from an image: numbers may be missing or shared, and a block may say
that its payload is longer than its data. Unpacking goes through all numbers in ascending order and
joins, for each number, the payloads of its blocks in the order of the list. So only the number, the
payload and the place among the blocks of the same number matter.
-/

namespace FirmwareSeal

/-! ## Rearranging a list -/

/-- A rearrangement that keeps the order of the chosen elements leaves the list of them as it is. -/
theorem filter_ofFn_get_perm {α : Type} (l : List α) (chosen : α → Bool)
    (σ : Equiv.Perm (Fin l.length))
    (h : ∀ i j, i < j → chosen (l.get (σ i)) → chosen (l.get (σ j)) → σ i < σ j) :
    (List.ofFn fun i ↦ l.get (σ i)).filter chosen = l.filter chosen := by
  let places := List.finRange l.length
  -- The chosen places ascend before and after the rearrangement, and they are the same ones.
  have hplaces : (places.map σ).filter (chosen ∘ l.get) = places.filter (chosen ∘ l.get) := by
    have hrearranged : ((places.map σ).filter (chosen ∘ l.get)).Pairwise (· < ·) := by
      rw [List.pairwise_filter, List.pairwise_map]
      apply (List.pairwise_lt_finRange l.length).imp
      intro i j hij
      exact h i j hij
    have hgiven : (places.filter (chosen ∘ l.get)).Pairwise (· < ·) :=
      (List.pairwise_lt_finRange l.length).filter _
    refine List.Perm.eq_of_pairwise ?_ hrearranged hgiven (σ.map_finRange_perm.filter _)
    intro i j _ _ hij hji
    exact absurd hij (lt_asymm hji)
  calc
    (List.ofFn fun i ↦ l.get (σ i)).filter chosen
      = ((places.map σ).map l.get).filter chosen := by
        rw [List.ofFn_eq_map, List.map_map]
        rfl
    _ = ((places.map σ).filter (chosen ∘ l.get)).map l.get := List.filter_map
    _ = (places.filter (chosen ∘ l.get)).map l.get := by rw [hplaces]
    _ = (places.map l.get).filter chosen := List.filter_map.symm
    _ = l.filter chosen := by rw [List.map_get_finRange]

namespace Flash

/-! ## The blocks of one number -/

/-- The blocks of a list that have a given number, in the order of the list. -/
def numbered (bs : List Block) (number : Nat) : List Block :=
  bs.filter fun b ↦ b.blockNumber.toNat = number

/-- They are in the list and have the number. -/
theorem mem_numbered_iff {bs : List Block} {number : Nat} {b : Block} :
    b ∈ numbered bs number ↔ b ∈ bs ∧ b.blockNumber.toNat = number := by
  rw [numbered, List.mem_filter, decide_eq_true_eq]

/-- Taking out the blocks with another number leaves them all. -/
theorem numbered_filter_of_ne (bs : List Block) {number other : Nat} (h : number ≠ other) :
    numbered (bs.filter fun b ↦ b.blockNumber.toNat ≠ other) number = numbered bs number := by
  rw [numbered, numbered, List.filter_filter]
  apply List.filter_congr
  intro b _
  by_cases hb : b.blockNumber.toNat = number <;> simp [hb, h]

/-- Sorting keeps the order of the blocks that have one number. -/
theorem numbered_inOrder (bs : List Block) (number : Nat) :
    numbered (inOrder bs) number = numbered bs number := by
  -- Blocks with one number are sorted already, and sorting keeps sorted sublists.
  have hsorted : (numbered bs number).Pairwise fun a b ↦ numberLe a b = true := by
    apply List.pairwise_of_forall_mem_list
    intro a ha b hb
    have hab := (mem_numbered_iff.mp ha).2.trans (mem_numbered_iff.mp hb).2.symm
    exact decide_eq_true (UInt32.le_iff_toNat_le.mpr (Nat.le_of_eq hab))
  have hsub : (numbered bs number).Sublist (inOrder bs) :=
    List.sublist_mergeSort numberLe_trans numberLe_total hsorted List.filter_sublist
  have hkept : (numbered bs number).Sublist (numbered (inOrder bs) number) := by
    have hfilter := hsub.filter fun b ↦ b.blockNumber.toNat = number
    simpa only [numbered, List.filter_filter, Bool.and_self] using hfilter
  refine (hkept.eq_of_length ?_).symm
  exact ((inOrder_perm bs).filter _).length_eq.symm

/-- In a sorted list the blocks with the least number stand in front. -/
theorem numbered_append_filter {bs : List Block} {number : Nat}
    (hsorted : bs.Pairwise fun a b ↦ a.blockNumber ≤ b.blockNumber)
    (hleast : ∀ b ∈ bs, number ≤ b.blockNumber.toNat) :
    numbered bs number ++ bs.filter (fun b ↦ b.blockNumber.toNat ≠ number) = bs := by
  induction bs with
  | nil => rfl
  | cons b bs ih =>
    obtain ⟨hfirst, hrest⟩ := List.pairwise_cons.mp hsorted
    obtain ⟨hb, hbs⟩ := List.forall_mem_cons.mp hleast
    by_cases h : b.blockNumber.toNat = number
    · simpa [numbered, h] using ih hrest hbs
    · -- A greater number is not followed by the least one.
      have hgreater : ∀ c ∈ b :: bs, c.blockNumber.toNat ≠ number := by
        intro c hc
        rcases List.mem_cons.mp hc with rfl | hc
        · exact h
        · have hle := UInt32.le_iff_toNat_le.mp (hfirst c hc)
          omega
      have hnone : numbered (b :: bs) number = [] := by
        simpa [numbered] using hgreater
      have hall : (b :: bs).filter (fun c ↦ c.blockNumber.toNat ≠ number) = b :: bs := by
        simpa using hgreater
      rw [hnone, hall, List.nil_append]

/-- A sorted list is made up of its blocks of one number after the other. -/
theorem flatMap_numbered {bs : List Block} {numbers : List Nat}
    (hsorted : bs.Pairwise fun a b ↦ a.blockNumber ≤ b.blockNumber)
    (hascending : numbers.Pairwise (· < ·)) (hcover : ∀ b ∈ bs, b.blockNumber.toNat ∈ numbers) :
    numbers.flatMap (numbered bs) = bs := by
  induction numbers generalizing bs with
  | nil =>
    rw [List.flatMap_nil]
    exact (List.eq_nil_iff_forall_not_mem.mpr fun b hb ↦ nomatch hcover b hb).symm
  | cons number numbers ih =>
    obtain ⟨hfirst, hrest⟩ := List.pairwise_cons.mp hascending
    let others := bs.filter fun b ↦ b.blockNumber.toNat ≠ number
    have hothers : numbers.flatMap (numbered bs) = numbers.flatMap (numbered others) := by
      apply List.flatMap_congr
      intro n hn
      exact (numbered_filter_of_ne bs (Nat.ne_of_gt (hfirst n hn))).symm
    have hleast : ∀ b ∈ bs, number ≤ b.blockNumber.toNat := by
      intro b hb
      rcases List.mem_cons.mp (hcover b hb) with h | h
      · exact Nat.le_of_eq h.symm
      · exact Nat.le_of_lt (hfirst _ h)
    have hcovered : ∀ b ∈ others, b.blockNumber.toNat ∈ numbers := by
      intro b hb
      obtain ⟨hmem, hne⟩ := List.mem_filter.mp hb
      exact (List.mem_cons.mp (hcover b hmem)).resolve_left (of_decide_eq_true hne)
    rw [List.flatMap_cons, hothers, ih (hsorted.filter _) hrest hcovered]
    exact numbered_append_filter hsorted hleast

/-! ## What the blocks of one number carry -/

/-- What the blocks with a given number carry, in the order of the list: of each block the leading
data bytes, as many as it says and at most 256. -/
def payloadsNumbered (bs : List Block) (number : Nat) : Bytes :=
  (numbered bs number).flatMap fun b ↦ b.data.toList.take (min b.payloadLength.toNat 256)

/-- A payload ends with the data. -/
theorem Block.payload_eq_take_min (b : Block) :
    b.payload = b.data.toList.take (min b.payloadLength.toNat 256) := by
  have hcut := List.take_eq_take_min (l := b.data.toList) (i := b.payloadLength.toNat)
  rw [b.data.length_toList] at hcut
  exact hcut

/-- A block in front adds its payload to those of its number. -/
theorem payloadsNumbered_cons (b : Block) (bs : List Block) (number : Nat) :
    payloadsNumbered (b :: bs) number =
      (if b.blockNumber.toNat = number then b.payload else []) ++ payloadsNumbered bs number := by
  rw [payloadsNumbered, numbered, List.filter_cons]
  by_cases h : b.blockNumber.toNat = number
  · simp only [h, decide_true, if_true, List.flatMap_cons, b.payload_eq_take_min]
    rfl
  · simp only [h, decide_false, if_false, Bool.false_eq_true]
    rfl

/-- Unpacking goes through the numbers in ascending order; numbers without a block may be left
out. -/
theorem unpack_eq_flatMap_payloadsNumbered {bs : List Block} {numbers : List Nat}
    (hascending : numbers.Pairwise (· < ·)) (hcover : ∀ b ∈ bs, b.blockNumber.toNat ∈ numbers) :
    unpack bs = numbers.flatMap (payloadsNumbered bs) := by
  have hcover' : ∀ b ∈ inOrder bs, b.blockNumber.toNat ∈ numbers :=
    fun b hb ↦ hcover b ((inOrder_perm bs).mem_iff.mp hb)
  rw [unpack_eq_flatMap_inOrder, ← flatMap_numbered (pairwise_inOrder bs) hascending hcover',
    List.flatMap_assoc]
  apply List.flatMap_congr
  intro number _
  rw [numbered_inOrder]
  exact List.flatMap_congr fun b _ ↦ b.payload_eq_take_min

/-- Unpacking may go through all numbers that there are. -/
theorem unpack_eq_flatMap_range (bs : List Block) :
    unpack bs = (List.range 4294967296).flatMap (payloadsNumbered bs) :=
  unpack_eq_flatMap_payloadsNumbered List.pairwise_lt_range
    fun b _ ↦ List.mem_range.mpr b.blockNumber.toNat_lt

/-- Lists whose blocks carry the same under every number unpack to the same bytes. -/
theorem unpack_congr {as bs : List Block}
    (h : ∀ number, payloadsNumbered as number = payloadsNumbered bs number) :
    unpack as = unpack bs := by
  rw [unpack_eq_flatMap_range, unpack_eq_flatMap_range]
  exact List.flatMap_congr fun number _ ↦ h number

/-! ## What unpacking does not look at -/

/-- Every block adds the length of its payload. -/
theorem length_unpack (bs : List Block) :
    (unpack bs).length = (bs.map fun b ↦ min b.payloadLength.toNat 256).sum := by
  rw [unpack_eq_flatMap_inOrder, ((inOrder_perm bs).flatMap_right _).length_eq,
    List.length_flatMap]
  simp only [Block.length_payload]
  rfl

/-- Blocks with different numbers may change places. -/
theorem unpack_ofFn_get_perm (bs : List Block) (σ : Equiv.Perm (Fin bs.length))
    (h : ∀ i j, i < j → (bs.get (σ i)).blockNumber = (bs.get (σ j)).blockNumber → σ i < σ j) :
    unpack (List.ofFn fun i ↦ bs.get (σ i)) = unpack bs := by
  apply unpack_congr
  intro number
  unfold payloadsNumbered numbered
  rw [filter_ofFn_get_perm]
  intro i j hij hi hj
  apply h i j hij
  rw [← UInt32.toNat_inj, of_decide_eq_true hi, of_decide_eq_true hj]

/-- Blocks that all have different numbers may stand in any order. -/
theorem unpack_perm_of_nodup {as bs : List Block} (hperm : as.Perm bs)
    (hdistinct : (bs.map Block.blockNumber).Nodup) : unpack as = unpack bs := by
  rw [unpack_eq_of_perm ((inOrder_perm bs).trans hperm.symm) (pairwise_inOrder bs),
    unpack_eq_flatMap_inOrder]
  intro a ha b hb hab
  exact List.inj_on_of_nodup_map hdistinct (hperm.mem_iff.mp ha) (hperm.mem_iff.mp hb) hab

/-- Whether two blocks have one number and the same payload. Their other fields may differ, and so
may the bytes behind the payload. -/
def Block.CarriesSame (a b : Block) : Prop :=
  a.blockNumber = b.blockNumber ∧ a.payloadLength = b.payloadLength ∧
    ∀ k < a.payloadLength.toNat, a.data.toList[k]? = b.data.toList[k]?

/-- Their payloads are equal. -/
theorem Block.CarriesSame.payload_eq {a b : Block} (h : a.CarriesSame b) :
    a.payload = b.payload := by
  obtain ⟨-, hlength, hbytes⟩ := h
  have hpiece := (take_drop_eq_take_drop_iff a.data.toList b.data.toList 0 a.payloadLength.toNat).mpr
    fun k _ hk ↦ hbytes k (by omega)
  unfold payload
  rw [← hlength]
  exact hpiece

/-- Blocks may be replaced by ones with the same number and payload. -/
theorem unpack_eq_of_carriesSame {as bs : List Block} (h : List.Forall₂ Block.CarriesSame as bs) :
    unpack as = unpack bs := by
  apply unpack_congr
  intro number
  induction h with
  | nil => rfl
  | cons hab _ ih => rw [payloadsNumbered_cons, payloadsNumbered_cons, hab.1, hab.payload_eq, ih]

/-- Any blocks unpack to what they carry, by ascending number and within one number in the order of
the list; it is enough to go through the numbers that occur. The length is that of all payloads. The
blocks may be rearranged if those with one number keep their order, so in any way if no two share a
number, and they may be replaced by others with the same numbers and payloads. -/
theorem unpack_joins_payloads_by_number (bs : List Block) :
    unpack bs = (List.range 4294967296).flatMap (payloadsNumbered bs) ∧
    (∀ numbers : List Nat, numbers.Pairwise (· < ·) → (∀ b ∈ bs, b.blockNumber.toNat ∈ numbers) →
      unpack bs = numbers.flatMap (payloadsNumbered bs)) ∧
    (unpack bs).length = (bs.map fun b ↦ min b.payloadLength.toNat 256).sum ∧
    (∀ σ : Equiv.Perm (Fin bs.length),
      (∀ i j, i < j → (bs.get (σ i)).blockNumber = (bs.get (σ j)).blockNumber → σ i < σ j) →
      unpack (List.ofFn fun i ↦ bs.get (σ i)) = unpack bs) ∧
    (∀ cs, cs.Perm bs → (bs.map Block.blockNumber).Nodup → unpack cs = unpack bs) ∧
    ∀ cs, List.Forall₂ Block.CarriesSame cs bs → unpack cs = unpack bs := by
  refine ⟨unpack_eq_flatMap_range bs, ?_, length_unpack bs, unpack_ofFn_get_perm bs, ?_, ?_⟩
  · intro numbers hascending hcover
    exact unpack_eq_flatMap_payloadsNumbered hascending hcover
  · intro cs hperm hdistinct
    exact unpack_perm_of_nodup hperm hdistinct
  · intro cs hsame
    exact unpack_eq_of_carriesSame hsame

/-- Two blocks share the number 3, and a third one with the last number says 300 bytes. The third
may go between the two, two blocks with different numbers may be swapped, and the fields and bytes
that are not looked at may change. -/
theorem unpack_joins_payloads_by_number_at_shared_number :
    let late : Block := ⟨0, 0, 300, 0xffffffff, 0, 0, Octets.padded 256 [9]⟩
    let first : Block := ⟨0, 0xffffff00, 2, 3, 0, 0, Octets.padded 256 [1, 2, 3]⟩
    let second : Block := ⟨0, 0, 1, 3, 0, 0, Octets.padded 256 [4, 5]⟩
    let other : Block := ⟨0x2000, 7, 1, 3, 9, 8, Octets.padded 256 [4, 6]⟩
    unpack [late, first, second] = [1, 2, 4, 9] ++ zeros 255 ∧
      unpack [first, late, second] = unpack [late, first, second] ∧
      unpack [first, late] = unpack [late, first] ∧
      unpack [late, first, other] = unpack [late, first, second] := by
  intro late first second other
  obtain ⟨-, hnumbers, -, horder, -, hsame⟩ :=
    unpack_joins_payloads_by_number [late, first, second]
  obtain ⟨-, -, -, -, hdistinct, -⟩ := unpack_joins_payloads_by_number [late, first]
  have hrefl (b : Block) : b.CarriesSame b := ⟨rfl, rfl, fun _ _ ↦ rfl⟩
  have hother : other.CarriesSame second := ⟨rfl, rfl, by decide⟩
  refine ⟨?_, horder (Equiv.swap 0 1) (by decide), ?_, ?_⟩
  · rw [hnumbers [3, 0xffffffff] (by decide) (by decide)]
    decide +kernel
  · exact hdistinct [first, late] (List.Perm.swap ..) (by decide)
  · exact hsame _ (.cons (hrefl late) (.cons (hrefl first) (.cons hother .nil)))

end Flash

end FirmwareSeal
