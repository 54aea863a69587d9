import FirmwareSeal.Proofs.Flash.Codec

/-!
# Which streams are read, and what is read of them

A stream is read exactly if it is made of full slices and each slice has the three magic words in
their places and a payload length that fits. Every byte of an accepted stream is a magic word, goes
into its block, or is padding: writing the blocks again gives the stream with zeros in place of all
padding, and streams that differ in their padding only are read as the same blocks.
-/

namespace FirmwareSeal

namespace Flash

/-- What the bytes of a block look like: the magic words in their places, and a payload length
that fits the data. -/
structure IsBlock (raw : Bytes) : Prop where
  start : wordAt raw 0 = startMagic
  second : wordAt raw 4 = secondMagic
  ending : wordAt raw 508 = endMagic
  fits : (wordAt raw 16).toNat ≤ dataLength

instance : DecidablePred IsBlock := fun raw ↦
  decidable_of_iff (wordAt raw 0 = startMagic ∧ wordAt raw 4 = secondMagic ∧
      wordAt raw 508 = endMagic ∧ (wordAt raw 16).toNat ≤ dataLength)
    ⟨fun ⟨hstart, hsecond, hend, hfits⟩ ↦ ⟨hstart, hsecond, hend, hfits⟩,
      fun h ↦ ⟨h.start, h.second, h.ending, h.fits⟩⟩

/-- Whether a byte of a stream lies between the data and the closing magic of its block. -/
def IsPadding (offset : Nat) : Prop :=
  288 ≤ offset % blockLength ∧ offset % blockLength < 508

instance : DecidablePred IsPadding :=
  fun offset ↦ inferInstanceAs (Decidable (288 ≤ offset % blockLength ∧ offset % blockLength < 508))

/-- A stream with zeros in place of all its padding. -/
def clearPadding (stream : Bytes) : Bytes :=
  stream.mapIdx fun offset byte ↦ if IsPadding offset then 0 else byte

/-! ## Clearing the padding -/

/-- Clearing the padding keeps the length. -/
@[simp] theorem length_clearPadding (stream : Bytes) :
    (clearPadding stream).length = stream.length :=
  List.length_mapIdx

/-- A byte behind a full block is padding if it is so without that block. -/
theorem isPadding_add_blockLength (offset : Nat) :
    IsPadding (offset + blockLength) ↔ IsPadding offset := by
  unfold IsPadding
  rw [Nat.add_mod_right]

/-- The padding of a block in front is cleared by itself. -/
theorem clearPadding_append {raw : Bytes} (h : raw.length = blockLength) (rest : Bytes) :
    clearPadding (raw ++ rest) = clearPadding raw ++ clearPadding rest := by
  unfold clearPadding
  rw [List.mapIdx_append, h]
  simp only [isPadding_add_blockLength]

/-- The padding of the first block starts behind its data and ends before its closing magic. -/
theorem isPadding_iff_of_lt {offset : Nat} (h : offset < blockLength) :
    IsPadding offset ↔ 288 ≤ offset ∧ offset < 508 := by
  unfold IsPadding
  rw [Nat.mod_eq_of_lt h]

/-- In one block, the bytes between the data and the closing magic are cleared. -/
theorem clearPadding_of_length {raw : Bytes} (h : raw.length = blockLength) :
    clearPadding raw = raw.take 288 ++ (zeros blockPadding ++ raw.drop 508) := by
  have hlength : raw.length = 512 := h
  have hfront : (raw.take 288).length = 288 := by
    rw [List.length_take, hlength]
    rfl
  have hzeros : (zeros blockPadding).length = 220 := length_zeros blockPadding
  apply List.ext_getElem
  · simp only [length_clearPadding, List.length_append, hfront, hzeros, List.length_drop, hlength]
  · intro k hk hk'
    rw [length_clearPadding] at hk
    simp only [clearPadding, List.getElem_mapIdx, isPadding_iff_of_lt (h ▸ hk)]
    rw [hlength] at hk
    -- Words and data, then the padding, then the closing magic.
    by_cases hdata : k < 288
    · rw [if_neg (by omega), List.getElem_append_left (by omega), List.getElem_take]
    · by_cases hpad : k < 508
      · rw [if_pos ⟨by omega, hpad⟩, List.getElem_append_right (by omega),
          List.getElem_append_left (by omega)]
        exact (List.getElem_replicate _).symm
      · have hend : 508 + (k - 288 - 220) = k := by omega
        rw [if_neg (by omega), List.getElem_append_right (by omega),
          List.getElem_append_right (by omega)]
        simp only [hfront, hzeros, List.getElem_drop, hend]

/-- Streams are the same without their padding if they have one length and agree elsewhere. -/
theorem clearPadding_eq_clearPadding_iff (s t : Bytes) :
    clearPadding s = clearPadding t ↔
      s.length = t.length ∧ ∀ k, ¬IsPadding k → s[k]? = t[k]? := by
  constructor
  · intro h
    refine ⟨?_, ?_⟩
    · rw [← length_clearPadding s, h, length_clearPadding]
    · intro k hk
      have hbyte := congrArg (·[k]?) h
      simpa only [clearPadding, List.getElem?_mapIdx, if_neg hk, Option.map_id'] using hbyte
  · rintro ⟨hlength, hbytes⟩
    apply List.ext_getElem?
    intro k
    simp only [clearPadding, List.getElem?_mapIdx]
    by_cases hk : IsPadding k
    · simp only [if_pos hk]
      by_cases hin : k < s.length
      · rw [List.getElem?_eq_getElem hin, List.getElem?_eq_getElem (hlength ▸ hin)]
        rfl
      · rw [List.getElem?_eq_none (Nat.le_of_not_lt hin),
          List.getElem?_eq_none (hlength ▸ Nat.le_of_not_lt hin)]
    · rw [hbytes k hk]

/-! ## One block -/

namespace Block

/-- The block whose fields stand in 512 bytes, whatever stands around them. -/
def ofSlice (raw : Bytes) (h : raw.length = blockLength) : Block where
  flags := wordAt raw 8
  targetAddress := wordAt raw 12
  payloadLength := wordAt raw 16
  blockNumber := wordAt raw 20
  blockCount := wordAt raw 24
  familyId := wordAt raw 28
  data := ⟨(raw.drop 32).take 256, by simp [h, blockLength]⟩

/-- Bytes are read as a block exactly if they have the length of one and look like one, and then as
the block whose fields they hold. -/
theorem ofBytes?_eq_some_iff {raw : Bytes} {b : Block} :
    ofBytes? raw = some b ↔ ∃ h : raw.length = blockLength, IsBlock raw ∧ ofSlice raw h = b := by
  unfold ofBytes?
  split
  · next hraw =>
    obtain ⟨hlength, hstart, hsecond, hend, hfits⟩ := hraw
    rw [Option.some.injEq]
    constructor
    · intro h
      exact ⟨hlength, ⟨hstart, hsecond, hend, hfits⟩, h⟩
    · rintro ⟨_, _, h⟩
      exact h
  · next hraw =>
    constructor
    · intro h
      cases h
    · rintro ⟨hlength, ⟨hstart, hsecond, hend, hfits⟩, -⟩
      exact absurd ⟨hlength, hstart, hsecond, hend, hfits⟩ hraw

/-- Bytes of the right length are read as a block exactly if they look like one. -/
theorem isSome_ofBytes?_iff {raw : Bytes} (h : raw.length = blockLength) :
    (ofBytes? raw).isSome = true ↔ IsBlock raw := by
  rw [Option.isSome_iff_exists]
  constructor
  · rintro ⟨b, hb⟩
    obtain ⟨-, hblock, -⟩ := ofBytes?_eq_some_iff.mp hb
    exact hblock
  · intro hblock
    exact ⟨ofSlice raw h, ofBytes?_eq_some_iff.mpr ⟨h, hblock, rfl⟩⟩

/-- What is read as a block has the length of one. -/
theorem length_of_ofBytes? {raw : Bytes} {b : Block} (h : ofBytes? raw = some b) :
    raw.length = blockLength := by
  obtain ⟨hlength, -, -⟩ := ofBytes?_eq_some_iff.mp h
  exact hlength

/-- The payload of a block that was read fits its data. -/
theorem payloadLength_le_of_ofBytes? {raw : Bytes} {b : Block} (h : ofBytes? raw = some b) :
    b.payloadLength.toNat ≤ dataLength := by
  obtain ⟨hlength, hblock, rfl⟩ := ofBytes?_eq_some_iff.mp h
  exact hblock.fits

/-- The words of a block are written as the 32 bytes they were read from. -/
theorem flatMap_words_ofSlice {raw : Bytes} (h : raw.length = blockLength) (hblock : IsBlock raw) :
    (ofSlice raw h).words.flatMap littleWord = raw.take 32 := by
  have hin : 4 * 8 ≤ raw.length := by
    rw [h]
    decide
  rw [← flatMap_littleWord_wordAt raw 8 hin, words, ← hblock.start, ← hblock.second]
  rfl

/-- The closing magic is written as the last four bytes. -/
theorem littleWord_endMagic {raw : Bytes} (h : raw.length = blockLength) (hblock : IsBlock raw) :
    littleWord endMagic = raw.drop 508 := by
  have hlength : raw.length = 512 := h
  have hlast : (raw.drop 508).length = 4 := by
    rw [List.length_drop, hlength]
  rw [← hblock.ending, littleWord_wordAt (Nat.le_of_eq hlength.symm),
    List.take_of_length_le (Nat.le_of_eq hlast)]

/-- A block that was read is written as its bytes with the padding cleared. -/
theorem toBytes_of_ofBytes? {raw : Bytes} {b : Block} (h : ofBytes? raw = some b) :
    b.toBytes = clearPadding raw := by
  obtain ⟨hlength, hblock, rfl⟩ := ofBytes?_eq_some_iff.mp h
  have hfront : raw.take 32 ++ (ofSlice raw hlength).data.toList = raw.take 288 :=
    List.take_add.symm
  rw [toBytes_eq, flatMap_words_ofSlice hlength hblock, littleWord_endMagic hlength hblock,
    ← List.append_assoc, hfront, clearPadding_of_length hlength]

end Block

/-! ## Streams -/

/-- Only the empty stream has no blocks. -/
theorem eq_nil_of_parse? {stream : Bytes} (h : parse? stream = some []) : stream = [] := by
  by_contra hne
  rw [parse?_of_ne_nil hne] at h
  obtain ⟨b, -, hb⟩ := Option.bind_eq_some_iff.mp h
  obtain ⟨bs, -, hbs⟩ := Option.map_eq_some_iff.mp hb
  cases hbs

/-- A stream with a first block is the bytes of that block, followed by the stream of the
others. -/
theorem exists_append_of_parse? {stream : Bytes} {b : Block} {bs : List Block}
    (h : parse? stream = some (b :: bs)) :
    ∃ raw rest, stream = raw ++ rest ∧ Block.ofBytes? raw = some b ∧ parse? rest = some bs := by
  have hne : stream ≠ [] := by
    rintro rfl
    rw [parse?_nil] at h
    cases h
  rw [parse?_of_ne_nil hne] at h
  obtain ⟨c, hc, h⟩ := Option.bind_eq_some_iff.mp h
  obtain ⟨cs, hcs, h⟩ := Option.map_eq_some_iff.mp h
  cases h
  exact ⟨_, _, (List.take_append_drop blockLength stream).symm, hc, hcs⟩

/-- The first slice of a stream is its first block. -/
theorem slice_append_zero {raw : Bytes} (h : raw.length = blockLength) (rest : Bytes) :
    slice (raw ++ rest) 0 = raw := by
  rw [slice, Nat.mul_zero, List.drop_zero, List.take_left' h]

/-- The other slices of a stream are the slices of what follows its first block. -/
theorem slice_append_succ {raw : Bytes} (h : raw.length = blockLength) (rest : Bytes) (i : Nat) :
    slice (raw ++ rest) (i + 1) = slice rest i := by
  rw [slice, slice, Nat.mul_succ, Nat.add_comm, ← List.drop_drop, List.drop_left' h]

/-- A stream has one block for each of its slices. -/
theorem length_of_parse? {stream : Bytes} {bs : List Block} (h : parse? stream = some bs) :
    stream.length = blockLength * bs.length := by
  induction bs generalizing stream with
  | nil =>
    rw [eq_nil_of_parse? h]
    rfl
  | cons b bs ih =>
    obtain ⟨raw, rest, rfl, hb, hbs⟩ := exists_append_of_parse? h
    rw [List.length_append, ih hbs, Block.length_of_ofBytes? hb, List.length_cons, Nat.mul_succ,
      Nat.add_comm]

/-- Each block of a stream is read from the slice at its place. -/
theorem ofBytes?_slice_of_parse? {stream : Bytes} {bs : List Block} (h : parse? stream = some bs)
    (i : Nat) (hi : i < bs.length) : Block.ofBytes? (slice stream i) = some bs[i] := by
  induction bs generalizing stream i with
  | nil => exact absurd hi (Nat.not_lt_zero i)
  | cons b bs ih =>
    obtain ⟨raw, rest, rfl, hb, hbs⟩ := exists_append_of_parse? h
    have hraw := Block.length_of_ofBytes? hb
    cases i with
    | zero =>
      rw [slice_append_zero hraw]
      exact hb
    | succ i =>
      rw [slice_append_succ hraw]
      exact ih hbs i (Nat.lt_of_succ_lt_succ hi)

/-- The payloads of blocks that were read fit their data. -/
theorem payloadLength_le_of_parse? {stream : Bytes} {bs : List Block}
    (h : parse? stream = some bs) : ∀ b ∈ bs, b.payloadLength.toNat ≤ dataLength := by
  intro b hb
  obtain ⟨i, hi, rfl⟩ := List.getElem_of_mem hb
  exact Block.payloadLength_le_of_ofBytes? (ofBytes?_slice_of_parse? h i hi)

/-- Writing the blocks of a stream again clears its padding. -/
theorem emit_of_parse? {stream : Bytes} {bs : List Block} (h : parse? stream = some bs) :
    emit bs = clearPadding stream := by
  induction bs generalizing stream with
  | nil =>
    rw [eq_nil_of_parse? h]
    rfl
  | cons b bs ih =>
    obtain ⟨raw, rest, rfl, hb, hbs⟩ := exists_append_of_parse? h
    have he : emit (b :: bs) = b.toBytes ++ emit bs := List.flatMap_cons
    rw [he, Block.toBytes_of_ofBytes? hb, ih hbs,
      clearPadding_append (Block.length_of_ofBytes? hb)]

/-- A stream of full slices is read exactly if each slice looks like a block. -/
theorem isSome_parse?_iff_of_length {stream : Bytes} (n : Nat)
    (h : stream.length = blockLength * n) :
    (parse? stream).isSome = true ↔ ∀ i < n, IsBlock (slice stream i) := by
  -- By the number of slices: the first is read by itself, the others are a shorter stream.
  induction n generalizing stream with
  | zero =>
    rw [List.eq_nil_of_length_eq_zero h, parse?_nil]
    exact ⟨fun _ i hi ↦ absurd hi (Nat.not_lt_zero i), fun _ ↦ rfl⟩
  | succ n ih =>
    rw [Nat.mul_succ] at h
    obtain ⟨raw, rest, rfl, hraw⟩ : ∃ raw rest, stream = raw ++ rest ∧ raw.length = blockLength :=
      ⟨_, _, (List.take_append_drop blockLength stream).symm, by rw [List.length_take]; omega⟩
    have hrest : rest.length = blockLength * n := by
      rw [List.length_append] at h
      omega
    rw [Nat.forall_lt_succ_left, slice_append_zero hraw, parse?_append hraw]
    simp only [slice_append_succ hraw]
    rw [← ih hrest, ← Block.isSome_ofBytes?_iff hraw]
    cases Block.ofBytes? raw <;> cases parse? rest <;> simp

/-! ## The grammar -/

/-- A stream is read exactly if it is made of full slices and each of them looks like a block. Its
blocks are those of its slices, one for each and in their order, and writing them gives the stream
with the padding cleared and no other byte changed, so that a stream that was written again stays
as it is. Two streams are read as the same blocks exactly if they have one length and agree outside
the padding. -/
theorem accepted_streams_are_block_slices :
    (∀ stream : Bytes, (parse? stream).isSome = true ↔
      stream.length % blockLength = 0 ∧
        ∀ i < stream.length / blockLength, IsBlock (slice stream i)) ∧
    (∀ (stream : Bytes) (bs : List Block), parse? stream = some bs →
      bs.length = stream.length / blockLength ∧
        (∀ (i : Nat) (hi : i < bs.length), Block.ofBytes? (slice stream i) = some bs[i]) ∧
        emit bs = clearPadding stream ∧ parse? (emit bs) = some bs) ∧
    ∀ (s t : Bytes) (bs cs : List Block), parse? s = some bs → parse? t = some cs →
      (bs = cs ↔ s.length = t.length ∧ ∀ k, ¬IsPadding k → s[k]? = t[k]?) := by
  refine ⟨?_, ?_, ?_⟩
  · intro stream
    constructor
    · intro hsome
      obtain ⟨bs, hbs⟩ := Option.isSome_iff_exists.mp hsome
      have hlength := length_of_parse? hbs
      have hcount : stream.length / blockLength = bs.length := by
        rw [hlength, Nat.mul_div_cancel_left _ (by decide)]
      refine ⟨by rw [hlength, Nat.mul_mod_right], ?_⟩
      rw [hcount]
      exact (isSome_parse?_iff_of_length bs.length hlength).mp hsome
    · rintro ⟨hmod, hslices⟩
      have hlength : stream.length = blockLength * (stream.length / blockLength) :=
        (Nat.mul_div_cancel' (Nat.dvd_of_mod_eq_zero hmod)).symm
      exact (isSome_parse?_iff_of_length _ hlength).mpr hslices
  · intro stream bs h
    refine ⟨?_, ofBytes?_slice_of_parse? h, emit_of_parse? h,
      parse?_emit (payloadLength_le_of_parse? h)⟩
    rw [length_of_parse? h, Nat.mul_div_cancel_left _ (by decide)]
  · intro s t bs cs hs ht
    rw [← clearPadding_eq_clearPadding_iff, ← emit_of_parse? hs, ← emit_of_parse? ht]
    exact emit_injective.eq_iff.symm

/-- A block with ones in its padding is read as the block with zeros there, and written as that. -/
theorem accepted_streams_are_block_slices_at_used_padding :
    let clean : Bytes := (Block.mk 0 0 256 0 1 0 (.zero 256)).toBytes
    let used : Bytes := clean.take 288 ++ (List.replicate 220 1 ++ clean.drop 508)
    used ≠ clean ∧ ∃ bs, parse? used = some bs ∧ parse? clean = some bs ∧ emit bs = clean := by
  intro clean used
  obtain ⟨haccepts, hreads, hsame⟩ := accepted_streams_are_block_slices
  have hused : clearPadding used = clean := by
    rw [clearPadding_of_length (by decide +kernel)]
    decide +kernel
  have hclean : clearPadding clean = clean := by
    rw [clearPadding_of_length (by decide +kernel)]
    decide +kernel
  obtain ⟨bs, hbs⟩ := Option.isSome_iff_exists.mp
    ((haccepts used).mpr ⟨by decide +kernel, by decide +kernel⟩)
  obtain ⟨cs, hcs⟩ := Option.isSome_iff_exists.mp
    ((haccepts clean).mpr ⟨by decide +kernel, by decide +kernel⟩)
  have he : bs = cs := (hsame used clean bs cs hbs hcs).mpr
    ((clearPadding_eq_clearPadding_iff used clean).mp (hused.trans hclean.symm))
  exact ⟨by decide +kernel, bs, hbs, he ▸ hcs, (hreads used bs hbs).2.2.1.trans hused⟩

end Flash

end FirmwareSeal
