import FirmwareSeal.Flash.Stream
import FirmwareSeal.Proofs.Bytes

/-!
# Reading what was written, for blocks and streams

Every field of a block is read back at its place, so a block is read from its own bytes exactly if
its payload fits the data. A stream is read slice by slice, and a stream of such blocks is read as
the same list of blocks; one block whose payload does not fit spoils it.
-/

namespace FirmwareSeal

namespace Flash

namespace Block

/-- The bytes of a block, cut behind its words. -/
theorem toBytes_eq (b : Block) :
    b.toBytes = b.words.flatMap littleWord ++
      (b.data.toList ++ (zeros blockPadding ++ littleWord endMagic)) := by
  simp only [toBytes, List.append_assoc]

/-- The words in front of the data take 32 bytes. -/
theorem length_words (b : Block) : (b.words.flatMap littleWord).length = 32 :=
  length_flatMap_littleWord b.words

/-- The words in front of the data stand at the multiples of four. -/
theorem wordAt_toBytes (b : Block) (i : Nat) (hi : i < b.words.length) :
    wordAt b.toBytes (4 * i) = b.words[i] := by
  rw [toBytes_eq]
  exact wordAt_flatMap_littleWord b.words _ i hi

/-- The closing magic takes the last four bytes. -/
theorem wordAt_toBytes_end (b : Block) : wordAt b.toBytes 508 = endMagic := by
  have hl : (b.words.flatMap littleWord ++ b.data.toList ++ zeros blockPadding).length = 508 := by
    rw [List.length_append, List.length_append, length_words, b.data.length_toList,
      length_zeros]
    rfl
  rw [toBytes, ← List.append_nil (littleWord endMagic)]
  exact wordAt_append hl endMagic []

/-- The data follows the words. -/
theorem take_drop_toBytes_data (b : Block) : (b.toBytes.drop 32).take 256 = b.data.toList := by
  rw [toBytes_eq, List.drop_left' b.length_words]
  exact List.take_left' b.data.length_toList

/-- A block is read from its own bytes if its payload fits the data, and otherwise not at all. -/
theorem ofBytes?_toBytes (b : Block) :
    ofBytes? b.toBytes = if b.payloadLength.toNat ≤ dataLength then some b else none := by
  have hmagic : wordAt b.toBytes 0 = startMagic := b.wordAt_toBytes 0 (by decide : 0 < 8)
  have hsecond : wordAt b.toBytes 4 = secondMagic := b.wordAt_toBytes 1 (by decide : 1 < 8)
  have hflags : wordAt b.toBytes 8 = b.flags := b.wordAt_toBytes 2 (by decide : 2 < 8)
  have htarget : wordAt b.toBytes 12 = b.targetAddress := b.wordAt_toBytes 3 (by decide : 3 < 8)
  have hlength : wordAt b.toBytes 16 = b.payloadLength := b.wordAt_toBytes 4 (by decide : 4 < 8)
  have hnumber : wordAt b.toBytes 20 = b.blockNumber := b.wordAt_toBytes 5 (by decide : 5 < 8)
  have hcount : wordAt b.toBytes 24 = b.blockCount := b.wordAt_toBytes 6 (by decide : 6 < 8)
  have hfamily : wordAt b.toBytes 28 = b.familyId := b.wordAt_toBytes 7 (by decide : 7 < 8)
  unfold ofBytes?
  by_cases h : b.payloadLength.toNat ≤ dataLength
  · rw [if_pos h, dif_pos ⟨b.length_toBytes, hmagic, hsecond, b.wordAt_toBytes_end,
      hlength ▸ h⟩, Option.some.injEq]
    simp only [hflags, htarget, hlength, hnumber, hcount, hfamily, b.take_drop_toBytes_data]
  · rw [if_neg h, dif_neg]
    rintro ⟨-, -, -, -, hfits⟩
    exact h (hlength ▸ hfits)

/-- The bytes of a block tell all of its fields. -/
theorem toBytes_injective : Function.Injective toBytes := by
  intro a b h
  rw [toBytes_eq, toBytes_eq] at h
  obtain ⟨hwords, hrest⟩ := List.append_inj h (by rw [length_words, length_words])
  obtain ⟨hdata, -⟩ := List.append_inj hrest (by rw [a.data.length_toList, b.data.length_toList])
  have hfields : a.words = b.words := flatMap_littleWord_injective hwords
  simp only [words, List.cons.injEq, and_true, true_and] at hfields
  obtain ⟨hflags, htarget, hlength, hnumber, hcount, hfamily⟩ := hfields
  cases a
  cases b
  simp only [mk.injEq]
  exact ⟨hflags, htarget, hlength, hnumber, hcount, hfamily, Octets.ext hdata⟩

end Block

/-! ## Streams -/

/-- The bytes of a stream that hold the block with a given place. -/
def slice (stream : Bytes) (place : Nat) : Bytes :=
  (stream.drop (blockLength * place)).take blockLength

/-- A stream is cut into the bytes of its blocks. -/
theorem chunks_emit (bs : List Block) : chunks blockLength (emit bs) = bs.map Block.toBytes :=
  chunks_flatMap (by decide) Block.length_toBytes bs

/-- The slices of a stream are the bytes of its blocks. -/
theorem slice_emit (bs : List Block) (i : Nat) (hi : i < bs.length) :
    slice (emit bs) i = bs[i].toBytes := by
  have hlength : i < (chunks blockLength (emit bs)).length := by
    rw [chunks_emit, List.length_map]
    exact hi
  have hslice : (chunks blockLength (emit bs))[i] = slice (emit bs) i :=
    getElem_chunks (by decide) (emit bs) i hlength
  rw [← hslice]
  simp only [chunks_emit, List.getElem_map]

/-- Streams with the same bytes have the same blocks. -/
theorem emit_injective : Function.Injective emit :=
  flatMap_injective (by decide) Block.length_toBytes Block.toBytes_injective

/-- The empty stream has no blocks. -/
@[simp] theorem parse?_nil : parse? [] = some [] := by
  rw [parse?, chunks_nil]
  rfl

/-- The bytes in front of a stream are read as a block, and those behind as a stream. -/
theorem parse?_of_ne_nil {stream : Bytes} (h : stream ≠ []) :
    parse? stream = (Block.ofBytes? (stream.take blockLength)).bind fun b ↦
      (parse? (stream.drop blockLength)).map fun bs ↦ b :: bs := by
  rw [parse?, chunks_of_ne_nil (by decide) h, List.mapM_cons, ← parse?]
  cases Block.ofBytes? (stream.take blockLength) with
  | none => rfl
  | some b => cases parse? (stream.drop blockLength) <;> rfl

/-- A block's bytes in front of a stream are read by themselves. -/
theorem parse?_append {raw : Bytes} (h : raw.length = blockLength) (rest : Bytes) :
    parse? (raw ++ rest) =
      (Block.ofBytes? raw).bind fun b ↦ (parse? rest).map fun bs ↦ b :: bs := by
  have hne : raw ++ rest ≠ [] := by
    apply List.append_ne_nil_of_left_ne_nil
    rintro rfl
    exact absurd h (by decide)
  rw [parse?_of_ne_nil hne, List.take_left' h, List.drop_left' h]

/-- The stream of some blocks is read as these blocks if all payloads fit, and otherwise not at
all. -/
theorem parse?_emit_eq_ite (bs : List Block) :
    parse? (emit bs) =
      if ∀ b ∈ bs, b.payloadLength.toNat ≤ dataLength then some bs else none := by
  induction bs with
  | nil =>
    rw [if_pos (List.forall_mem_nil _)]
    exact parse?_nil
  | cons b bs ih =>
    have he : emit (b :: bs) = b.toBytes ++ emit bs := List.flatMap_cons
    rw [he, parse?_append b.length_toBytes, Block.ofBytes?_toBytes, ih]
    simp only [List.forall_mem_cons]
    by_cases hb : b.payloadLength.toNat ≤ dataLength
    · by_cases hbs : ∀ c ∈ bs, c.payloadLength.toNat ≤ dataLength
      · rw [if_pos hb, if_pos hbs, if_pos ⟨hb, hbs⟩]
        rfl
      · rw [if_pos hb, if_neg hbs, if_neg fun h ↦ hbs h.2]
        rfl
    · have hall : ¬(b.payloadLength.toNat ≤ dataLength ∧
          ∀ c ∈ bs, c.payloadLength.toNat ≤ dataLength) := fun h ↦ hb h.1
      rw [if_neg hb, if_neg hall]
      rfl

/-- A stream of blocks whose payloads fit is read as these blocks. -/
theorem parse?_emit {bs : List Block} (h : ∀ b ∈ bs, b.payloadLength.toNat ≤ dataLength) :
    parse? (emit bs) = some bs := by
  rw [parse?_emit_eq_ite, if_pos h]

end Flash

end FirmwareSeal
