import FirmwareSeal.Proofs.Flash.Codec

/-!
# Which blocks survive being written and read

The stream of any list of blocks is read as that list, in its order and with every field, unless
one of the blocks says that its payload is longer than its data. A list with such a block can be
unpacked, but its stream is refused.
-/

namespace FirmwareSeal

namespace Flash

/-- Reading what was written gives back the very list of blocks, whatever their fields hold, if
all payloads fit the data, and nothing if one does not. So blocks with the same bytes are the same
block, and a list that was written and read again unpacks to what it did before. -/
theorem emitted_blocks_are_read_back :
    (∀ bs : List Block, (∀ b ∈ bs, b.payloadLength.toNat ≤ dataLength) →
      parse? (emit bs) = some bs) ∧
    (∀ bs : List Block, (∃ b ∈ bs, dataLength < b.payloadLength.toNat) →
      parse? (emit bs) = none) ∧
    Function.Injective Block.toBytes ∧
    ∀ bs cs : List Block, parse? (emit bs) = some cs → unpack cs = unpack bs := by
  refine ⟨fun bs h ↦ parse?_emit h, ?_, Block.toBytes_injective, ?_⟩
  · rintro bs ⟨b, hb, hlong⟩
    have hall : ¬∀ c ∈ bs, c.payloadLength.toNat ≤ dataLength :=
      fun h ↦ Nat.not_lt_of_le (h b hb) hlong
    rw [parse?_emit_eq_ite, if_neg hall]
  · intro bs cs h
    rw [parse?_emit_eq_ite] at h
    split at h
    · rw [Option.some.inj h]
    · cases h

/-- Two blocks against the order of their numbers survive, and a third one that says 257 bytes
spoils the stream. -/
theorem emitted_blocks_are_read_back_at_oversized_payload :
    let late : Block := ⟨0xffffffff, 0xffffff80, 0, 0xffffffff, 0, 7, .zero 256⟩
    let early : Block := ⟨0, 1, 256, 0, 0, 0, .zero 256⟩
    let oversized : Block := ⟨0, 0, 257, 1, 3, 0, .zero 256⟩
    (∃ cs, parse? (emit [late, early]) = some cs ∧ unpack cs = unpack [late, early]) ∧
      parse? (emit [late, early, oversized]) = none := by
  intro late early oversized
  obtain ⟨hfits, hlong, -, hunpack⟩ := emitted_blocks_are_read_back
  have hread : parse? (emit [late, early]) = some [late, early] :=
    hfits [late, early] (by decide)
  have hmem : oversized ∈ [late, early, oversized] :=
    List.mem_cons_of_mem late (List.mem_cons_of_mem early List.mem_cons_self)
  exact ⟨⟨_, hread, hunpack _ _ hread⟩,
    hlong [late, early, oversized] ⟨oversized, hmem, by decide⟩⟩

end Flash

end FirmwareSeal
