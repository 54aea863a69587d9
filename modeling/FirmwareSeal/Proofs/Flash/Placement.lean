import FirmwareSeal.Proofs.Flash.WireForm
import Mathlib.Data.Set.Defs
import Mathlib.Logic.Function.Basic

/-!
# Where the blocks go in flash

Every block names the address that its payload goes to, so blocks may be written in any order. The
ranges of different blocks do not meet as long as the image fits the address space, also if they run
past the last address, on from zero. A sealed image starts with a jump, and in flash this jump leads
to the payload.
-/

namespace FirmwareSeal

namespace Flash

/-- The bytes at the addresses of 32 bits. -/
abbrev Memory := UInt32 → UInt8

namespace Memory

/-- Writes bytes one after the other; zero comes after the last address. -/
def store (m : Memory) (address : UInt32) : Bytes → Memory
  | [] => m
  | byte :: rest => store (Function.update m address byte) (address + 1) rest

/-- Reads bytes one after the other. -/
def load (m : Memory) (address : UInt32) (n : Nat) : Bytes :=
  (List.range n).map fun k ↦ m (address + UInt32.ofNat k)

/-- Writes the payloads of blocks to their addresses, one block after the other. -/
def program (m : Memory) (bs : List Block) : Memory :=
  bs.foldl (fun current b ↦ current.store b.targetAddress b.payload) m

/-- The first block is written first. -/
theorem program_cons (m : Memory) (b : Block) (bs : List Block) :
    m.program (b :: bs) = (m.store b.targetAddress b.payload).program bs := rfl

/-! ## Writing bytes -/

/-- Writing leaves at an address the byte whose place is the distance from the start, or what was
there. -/
theorem store_apply (m : Memory) (address : UInt32) {bytes : Bytes}
    (h : bytes.length ≤ 4294967296) (a : UInt32) :
    m.store address bytes a = (bytes[(a - address).toNat]?).getD (m a) := by
  induction bytes generalizing m address with
  | nil => rfl
  | cons byte rest ih =>
    rw [List.length_cons] at h
    rw [store, ih _ _ (by omega)]
    by_cases ha : a = address
    · subst ha
      -- The rest starts one further, and is too short to come back to the start.
      have hdistance : (a - (a + 1)).toNat = 4294967295 := by
        rw [UInt32.toNat_sub, UInt32.toNat_add]
        have hlt := a.toNat_lt
        simp only [UInt32.toNat_one]
        omega
      rw [hdistance, List.getElem?_eq_none (by omega), UInt32.sub_self]
      simp
    · have hdistance : (a - address).toNat = (a - (address + 1)).toNat + 1 := by
        have hne : a.toNat ≠ address.toNat := fun heq ↦ ha (UInt32.toNat_inj.mp heq)
        have hlt := a.toNat_lt
        have hlt' := address.toNat_lt
        rw [UInt32.toNat_sub, UInt32.toNat_sub, UInt32.toNat_add]
        simp only [UInt32.toNat_one]
        omega
      rw [hdistance, List.getElem?_cons_succ, Function.update_of_ne ha]

end Memory

/-! ## Writing blocks -/

/-- Counted from a base, an address is as far away as the count says. -/
theorem toNat_add_ofNat_sub (base : UInt32) {k : Nat} (hk : k < 4294967296) :
    (base + UInt32.ofNat k - base).toNat = k := by
  rw [UInt32.add_comm, UInt32.add_sub_cancel, UInt32.toNat_ofNat_of_lt' hk]

/-- The addresses that a block claims: as many as its payload length says, from its target on. -/
def Block.addresses (b : Block) : Set UInt32 :=
  {a | ∃ k < b.payloadLength.toNat, a = b.targetAddress + UInt32.ofNat k}

/-- An address is claimed if its distance from the target is below the payload length. -/
theorem Block.mem_addresses_iff {b : Block} {a : UInt32} :
    a ∈ b.addresses ↔ (a - b.targetAddress).toNat < b.payloadLength.toNat := by
  constructor
  · rintro ⟨k, hk, rfl⟩
    rw [toNat_add_ofNat_sub _ (Nat.lt_trans hk b.payloadLength.toNat_lt)]
    exact hk
  · intro h
    refine ⟨_, h, ?_⟩
    rw [UInt32.ofNat_toNat, UInt32.add_comm, UInt32.sub_add_cancel]

/-- Whether no address is claimed by two blocks of a list. -/
def Apart (bs : List Block) : Prop := bs.Pairwise fun b c ↦ ∀ a ∈ b.addresses, a ∉ c.addresses

/-- Whether addresses are claimed twice does not depend on the order of the blocks. -/
theorem Apart.of_perm {bs order : List Block} (h : Apart bs) (horder : order.Perm bs) :
    Apart order := by
  apply (horder.pairwise_iff ?_).mpr h
  intro b c hbc a hac hab
  exact hbc a hab hac

namespace Memory

/-- What writing a block leaves at an address. -/
theorem store_payload_apply (m : Memory) (b : Block) (a : UInt32) :
    m.store b.targetAddress b.payload a =
      (b.payload[(a - b.targetAddress).toNat]?).getD (m a) := by
  apply store_apply
  rw [Block.length_payload]
  simp only [dataLength]
  omega

/-- Writing a block changes nothing outside the addresses that it claims. -/
theorem store_payload_of_not_mem (m : Memory) {b : Block} {a : UInt32} (h : a ∉ b.addresses) :
    m.store b.targetAddress b.payload a = m a := by
  rw [Block.mem_addresses_iff] at h
  have hlength := b.length_payload
  rw [store_payload_apply, List.getElem?_eq_none (by omega)]
  rfl

/-- Writing blocks changes nothing outside the addresses that they claim. -/
theorem program_of_not_mem (m : Memory) {bs : List Block} {a : UInt32}
    (h : ∀ b ∈ bs, a ∉ b.addresses) : m.program bs a = m a := by
  induction bs generalizing m with
  | nil => rfl
  | cons b rest ih =>
    rw [List.forall_mem_cons] at h
    obtain ⟨hb, hrest⟩ := h
    rw [program_cons, ih _ hrest, store_payload_of_not_mem m hb]

/-- Blocks that claim no address twice do not overwrite each other. -/
theorem program_of_mem (m : Memory) {bs : List Block} (hapart : Apart bs) {b : Block} (hb : b ∈ bs)
    {a : UInt32} (ha : a ∈ b.addresses) :
    m.program bs a = (b.payload[(a - b.targetAddress).toNat]?).getD (m a) := by
  induction bs generalizing m with
  | nil => cases hb
  | cons c rest ih =>
    obtain ⟨hc, hrest⟩ := List.pairwise_cons.mp hapart
    rcases List.mem_cons.mp hb with rfl | hmem
    · have hothers (d : Block) (hd : d ∈ rest) : a ∉ d.addresses := hc d hd a ha
      rw [program_cons, program_of_not_mem _ hothers, store_payload_apply]
    · have hnot : a ∉ c.addresses := fun hac ↦ hc b hmem a hac ha
      rw [program_cons, ih _ hrest hmem, store_payload_of_not_mem m hnot]

end Memory

/-! ## The blocks of an image -/

section

variable {image : Bytes} {familyId baseAddress : UInt32}

/-- The blocks of an image that fits the address space fit it together. -/
theorem blocks_end_le (h : image.length ≤ 4294967296) :
    256 * blockCount image.length ≤ 4294967296 := by
  have hcount : blockCount image.length ≤ 16777216 := blockCount_le_iff.mpr h
  omega

/-- Each of them ends in the address space, counted from the base. -/
theorem block_end_le (h : image.length ≤ 4294967296) {place : Nat}
    (hplace : place < blockCount image.length) : 256 * place + 256 ≤ 4294967296 := by
  have hend := blocks_end_le h
  omega

/-- The distance from the base decides which block claims an address. -/
theorem mem_addresses_blockAt_iff (h : image.length ≤ 4294967296) {place : Nat}
    (hplace : place < blockCount image.length) {a : UInt32} :
    a ∈ (blockAt image familyId baseAddress place).addresses ↔
      (a - baseAddress).toNat / 256 = place := by
  have hend := block_end_le h hplace
  have hlength : (blockAt image familyId baseAddress place).payloadLength.toNat = 256 := rfl
  have hlt := a.toNat_lt
  have hlt' := baseAddress.toNat_lt
  -- Distances are taken modulo 2^32; the block ends below that, so it does not wrap by itself.
  rw [Block.mem_addresses_iff, hlength, UInt32.toNat_sub, UInt32.toNat_sub,
    toNat_targetAddress_blockAt]
  omega

/-- A block carries the byte whose place in the image is the distance of the address from the
base. -/
theorem getElem?_payload_blockAt {a : UInt32} {place : Nat}
    (hplace : (a - baseAddress).toNat / 256 = place) :
    (blockAt image familyId baseAddress place).payload[
        (a - (blockAt image familyId baseAddress place).targetAddress).toNat]? =
      some (image.getD (a - baseAddress).toNat 0) := by
  have hlt := a.toNat_lt
  have hlt' := baseAddress.toNat_lt
  have hdistance : (a - (blockAt image familyId baseAddress place).targetAddress).toNat =
      (a - baseAddress).toNat % 256 := by
    rw [UInt32.toNat_sub] at hplace ⊢
    rw [UInt32.toNat_sub, toNat_targetAddress_blockAt]
    omega
  have hpayload : (blockAt image familyId baseAddress place).payload =
      (List.range 256).map fun j ↦ image.getD (256 * place + j) 0 := by
    rw [payload_blockAt, ← toList_data_blockAt image familyId baseAddress place]
    rfl
  rw [hdistance, hpayload, List.getElem?_map, List.getElem?_range (Nat.mod_lt _ (by decide)),
    Option.map_some, ← hplace, Nat.div_add_mod]

/-- The blocks of an image claim no address twice. -/
theorem apart_blocks (h : image.length ≤ 4294967296) :
    Apart (blocks image familyId baseAddress) := by
  rw [blocks_eq_map_range, Apart, List.pairwise_map]
  refine List.Pairwise.imp_of_mem ?_ (List.pairwise_lt_range)
  intro i j hi hj hij a hai haj
  rw [mem_addresses_blockAt_iff h (List.mem_range.mp hi)] at hai
  rw [mem_addresses_blockAt_iff h (List.mem_range.mp hj)] at haj
  omega

/-- In whatever order the blocks of an image are written, the image fills the memory from the base
on, with zeros behind its end, and nothing else changes. -/
theorem program_perm_blocks_apply (h : image.length ≤ 4294967296) {order : List Block}
    (horder : order.Perm (blocks image familyId baseAddress)) (m : Memory) (a : UInt32) :
    m.program order a =
      if (a - baseAddress).toNat < 256 * blockCount image.length then
        image.getD (a - baseAddress).toNat 0
      else m a := by
  have hapart : Apart order := (apart_blocks h).of_perm horder
  have hmem (b : Block) : b ∈ order ↔
      ∃ place < blockCount image.length, blockAt image familyId baseAddress place = b := by
    rw [horder.mem_iff, blocks_eq_map_range, List.mem_map]
    simp only [List.mem_range]
  -- An address within the blocks is claimed by the one at its place, any other by none.
  split
  · next hlt =>
    have hplace : (a - baseAddress).toNat / 256 < blockCount image.length := by omega
    rw [Memory.program_of_mem m hapart ((hmem _).mpr ⟨_, hplace, rfl⟩)
      ((mem_addresses_blockAt_iff h hplace).mpr rfl), getElem?_payload_blockAt rfl]
    rfl
  · next hge =>
    apply Memory.program_of_not_mem
    intro b hb ha
    obtain ⟨place, hplace, rfl⟩ := (hmem b).mp hb
    rw [mem_addresses_blockAt_iff h hplace] at ha
    omega

/-- Every byte of the image is where it belongs, and so are the zeros behind its end. -/
theorem program_perm_blocks_add (h : image.length ≤ 4294967296) {order : List Block}
    (horder : order.Perm (blocks image familyId baseAddress)) (m : Memory) {k : Nat}
    (hk : k < 256 * blockCount image.length) :
    m.program order (baseAddress + UInt32.ofNat k) = image.getD k 0 := by
  have hend := Nat.lt_of_lt_of_le hk (blocks_end_le h)
  rw [program_perm_blocks_apply h horder, toNat_add_ofNat_sub _ hend,
    if_pos hk]

end

/-! ## The jump at the start -/

/-- How far an instruction jumps, if it is a jump that keeps no return address. The displacement is
in bits 30 to 21, 20 and 19 to 12, from its second bit on, with the sign in bit 31. -/
def jumpDisplacement? (instruction : UInt32) : Option UInt32 :=
  let low : UInt32 := instruction >>> 21 &&& 0x3ff
  let middle : UInt32 := instruction >>> 20 &&& 1
  let high : UInt32 := instruction >>> 12 &&& 0xff
  let sign : UInt32 := instruction >>> 31
  if instruction &&& 0xfff = 0x6f then
    some (low * 0x2 + middle * 0x800 + high * 0x1000 - sign * 0x100000)
  else none

/-- Where the instruction at an address leads to, if it only jumps. -/
def Memory.jumpTarget? (m : Memory) (address : UInt32) : Option UInt32 :=
  (jumpDisplacement? (wordAt (m.load address 4) 0)).map (address + ·)

/-- The jump word leads over the signature block. -/
theorem jumpDisplacement?_of_jumpWord :
    jumpDisplacement? (wordAt (littleWord jumpWord) 0) =
      some (UInt32.ofNat signatureBlockLength) := by
  decide

/-- An image that fills the memory from an address on is read there. -/
theorem Memory.load_eq_take {m : Memory} {address : UInt32} {image : Bytes} {n : Nat}
    (hn : n ≤ image.length) (h : ∀ k < n, m (address + UInt32.ofNat k) = image.getD k 0) :
    m.load address n = image.take n := by
  apply List.ext_getElem
  · rw [load, List.length_map, List.length_range, List.length_take, Nat.min_eq_left hn]
  · intro k hk hk'
    have hlt : k < n := by simpa [load] using hk
    rw [List.getElem_take]
    simp only [load, List.getElem_map, List.getElem_range, h k hlt]
    exact List.getD_eq_getElem image 0 (Nat.lt_of_lt_of_le hlt hn)

/-! ## Placement -/

section

variable {image : Bytes} {familyId baseAddress : UInt32}

/-- The blocks of a sealed image put a jump at the base that leads to the payload. -/
theorem program_perm_blocks_of_sealFirmware (h : image.length ≤ 4294967296) {order : List Block}
    (horder : order.Perm (blocks image familyId baseAddress)) (m : Memory) {signer : Signer}
    {secretKey firmware : Bytes} {options : SealOptions}
    (hseal : sealFirmware signer secretKey firmware options = .ok image) :
    (m.program order).jumpTarget? baseAddress = some (baseAddress + 768) ∧
    ∀ k (hk : k < (stripEnvelope firmware).length),
      m.program order (baseAddress + 768 + UInt32.ofNat k) = (stripEnvelope firmware)[k] := by
  obtain ⟨hwrapped, hstrip⟩ := strip_of_sealFirmware hseal
  have hpayload : stripEnvelope firmware = image.drop 768 := by
    rw [← hstrip, stripEnvelope_of_isWrapped hwrapped]
    rfl
  have hcover : image.length ≤ 256 * blockCount image.length := le_dataLength_mul_blockCount _
  constructor
  · obtain ⟨signature, -, himage⟩ := exists_signature_of_sealFirmware hseal
    have hjump : image.take 4 = littleWord jumpWord := by
      rw [himage]
      exact SignedImage.take_toBytes_jump _
    have hlength : 4 ≤ image.length := by
      have hmagic := le_length_of_isWrapped hwrapped
      omega
    have hload : (m.program order).load baseAddress 4 = image.take 4 := by
      apply Memory.load_eq_take hlength
      intro k hk
      exact program_perm_blocks_add h horder m (by omega)
    rw [Memory.jumpTarget?, hload, hjump, jumpDisplacement?_of_jumpWord]
    rfl
  · intro k hk
    have hlt : 768 + k < image.length := by
      rw [hpayload, List.length_drop] at hk
      omega
    have haddress : baseAddress + 768 + UInt32.ofNat k = baseAddress + UInt32.ofNat (768 + k) := by
      rw [UInt32.ofNat_add, UInt32.add_assoc]
      rfl
    rw [haddress, program_perm_blocks_add h horder m (by omega)]
    simp only [hpayload, List.getElem_drop]
    exact List.getD_eq_getElem image 0 hlt

end

/-- The blocks of an image that fits the address space claim 256 addresses each and none twice. When
they are written in any order, the image stands in the memory from the base address on, with zeros
behind its end up to the end of its last block, and no other address changes. A sealed image then
starts with a jump that leads to its payload. -/
theorem blocks_place_image_in_any_order (image : Bytes) (familyId baseAddress : UInt32)
    (h : image.length ≤ 4294967296) (order : List Block)
    (horder : order.Perm (blocks image familyId baseAddress)) (m : Memory) :
    (∀ b ∈ order, b.payloadLength = 256) ∧
    (order.Pairwise fun b c ↦ ∀ a ∈ b.addresses, a ∉ c.addresses) ∧
    (∀ k (hk : k < image.length), m.program order (baseAddress + UInt32.ofNat k) = image[k]) ∧
    (∀ k, image.length ≤ k → k < 256 * blockCount image.length →
      m.program order (baseAddress + UInt32.ofNat k) = 0) ∧
    (∀ a, (∀ k < 256 * blockCount image.length, a ≠ baseAddress + UInt32.ofNat k) →
      m.program order a = m a) ∧
    ∀ (signer : Signer) (secretKey firmware : Bytes) (options : SealOptions),
      sealFirmware signer secretKey firmware options = .ok image →
      (m.program order).jumpTarget? baseAddress = some (baseAddress + 768) ∧
      ∀ k (hk : k < (stripEnvelope firmware).length),
        m.program order (baseAddress + 768 + UInt32.ofNat k) = (stripEnvelope firmware)[k] := by
  have hcover : image.length ≤ 256 * blockCount image.length := le_dataLength_mul_blockCount _
  refine ⟨?_, ?_, ?_, ?_, ?_, ?_⟩
  · intro b hb
    rw [horder.mem_iff, blocks_eq_map_range, List.mem_map] at hb
    obtain ⟨place, -, rfl⟩ := hb
    rfl
  · exact (apart_blocks h).of_perm horder
  · intro k hk
    rw [program_perm_blocks_add h horder m (Nat.lt_of_lt_of_le hk hcover)]
    exact List.getD_eq_getElem image 0 hk
  · intro k hk hend
    rw [program_perm_blocks_add h horder m hend]
    exact List.getD_eq_default image 0 hk
  · intro a ha
    rw [program_perm_blocks_apply h horder, if_neg]
    intro hlt
    apply ha _ hlt
    rw [UInt32.ofNat_toNat, UInt32.add_comm, UInt32.sub_add_cancel]
  · intro signer secretKey firmware options hseal
    exact program_perm_blocks_of_sealFirmware h horder m hseal

/-- A sealed firmware of one byte is written from the last block to the first. The signature block
takes the last 768 addresses, so the jump leads to address zero, where the byte stands with a zero
behind it. The address in front of the base is as it was. -/
theorem blocks_place_image_in_any_order_across_address_wrap :
    ∃ image, sealFirmware (.constant (.zero 64)) [] [7] .release = .ok image ∧
      let m := Memory.program (fun _ ↦ 0xff) (blocks image 0 0xfffffd00).reverse
      m.jumpTarget? 0xfffffd00 = some 0 ∧ m 0 = 7 ∧ m 1 = 0 ∧ m 0xfffffcff = 0xff := by
  obtain ⟨image, hseal⟩ :
      ∃ image, sealFirmware (.constant (.zero 64)) [] [7] .release = .ok image := ⟨_, rfl⟩
  have hlength : image.length = 769 := by
    obtain ⟨signature, -, rfl⟩ := exists_signature_of_sealFirmware hseal
    exact length_sealedImage signature _ _
  have hcount : blockCount image.length = 4 := by
    rw [hlength]
    rfl
  obtain ⟨-, -, -, hzeros, hothers, hsealed⟩ := blocks_place_image_in_any_order image 0 0xfffffd00
    (by omega) (blocks image 0 0xfffffd00).reverse (List.reverse_perm _) fun _ ↦ 0xff
  obtain ⟨hjump, hpayload⟩ := hsealed _ _ _ _ hseal
  rw [hcount] at hzeros hothers
  refine ⟨image, hseal, hjump, hpayload 0 (by decide), hzeros 769 (by omega) (by decide), ?_⟩
  apply hothers
  intro k hk hbase
  have hdistance := toNat_add_ofNat_sub 0xfffffd00 (Nat.lt_trans hk (by decide))
  rw [← hbase] at hdistance
  have hfar : ((0xfffffcff : UInt32) - 0xfffffd00).toNat = 4294967295 := rfl
  omega

end Flash

end FirmwareSeal
