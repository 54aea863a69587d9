import FirmwareSeal.Proofs.Image.Resealing

/-!
# Signature blocks inside each other

An image may hold a payload that is an image again. Its core is what is left when no signature
block stands in front any more, and its layers are the blocks that had to go. Sealing replaces the
outermost block and stripping takes it away, so neither touches the core, and a buffer with at
most one layer never gets a second one.
-/

namespace FirmwareSeal

/-- What is left of an image when it is stripped until no signature block is found. -/
def core (image : Bytes) : Bytes :=
  if _h : isWrapped image = true then core (stripEnvelope image) else image
termination_by image.length
decreasing_by exact length_stripEnvelope_lt ‹_›

/-- How often an image is stripped until no signature block is found. -/
def layers (image : Bytes) : Nat :=
  if _h : isWrapped image = true then layers (stripEnvelope image) + 1 else 0
termination_by image.length
decreasing_by exact length_stripEnvelope_lt ‹_›

/-- A wrapped image has the core of what is inside. -/
theorem core_of_isWrapped {image : Bytes} (h : isWrapped image = true) :
    core image = core (stripEnvelope image) := by
  rw [core, dif_pos h]

/-- Any other byte string is its own core. -/
theorem core_of_not_isWrapped {image : Bytes} (h : isWrapped image = false) :
    core image = image := by
  rw [core, dif_neg (Bool.eq_false_iff.mp h)]

/-- A wrapped image has one layer more than what is inside. -/
theorem layers_of_isWrapped {image : Bytes} (h : isWrapped image = true) :
    layers image = layers (stripEnvelope image) + 1 := by
  rw [layers, dif_pos h]

/-- Any other byte string has no layers. -/
theorem layers_of_not_isWrapped {image : Bytes} (h : isWrapped image = false) :
    layers image = 0 := by
  rw [layers, dif_neg (Bool.eq_false_iff.mp h)]

/-! ## Core and layers by repeated stripping -/

/-- No signature block is found in front of a core. -/
theorem isWrapped_core (image : Bytes) : isWrapped (core image) = false := by
  fun_induction core image with
  | case1 image h ih => exact ih
  | case2 image h => exact Bool.eq_false_iff.mpr h

/-- Stripping once for each layer gives the core. -/
theorem iterate_stripEnvelope_layers (image : Bytes) :
    stripEnvelope^[layers image] image = core image := by
  fun_induction layers image with
  | case1 image h ih => rw [Function.iterate_succ_apply, ih, core_of_isWrapped h]
  | case2 image h => exact (core_of_not_isWrapped (Bool.eq_false_iff.mpr h)).symm

/-- Before that, every strip finds a signature block. -/
theorem isWrapped_iterate_stripEnvelope {image : Bytes} {n : Nat} (hn : n < layers image) :
    isWrapped (stripEnvelope^[n] image) = true := by
  fun_induction layers image generalizing n with
  | case1 image h ih =>
    cases n with
    | zero => exact h
    | succ n =>
      rw [Function.iterate_succ_apply]
      exact ih (Nat.lt_of_succ_lt_succ hn)
  | case2 image h => exact absurd hn (Nat.not_lt_zero n)

/-! ## One step -/

/-- Stripping keeps the core. -/
theorem core_stripEnvelope (image : Bytes) : core (stripEnvelope image) = core image := by
  cases h : isWrapped image with
  | true => exact (core_of_isWrapped h).symm
  | false => rw [stripEnvelope_of_not_isWrapped h]

/-- Stripping takes one layer, if there is one. -/
theorem layers_stripEnvelope (image : Bytes) :
    layers (stripEnvelope image) = layers image - 1 := by
  cases h : isWrapped image with
  | true =>
    rw [layers_of_isWrapped h]
    rfl
  | false => rw [stripEnvelope_of_not_isWrapped h, layers_of_not_isWrapped h]

namespace SealRequest

/-- Sealing keeps the core. -/
theorem core_of_answer_ok {request : SealRequest} {firmware image : Bytes}
    (h : request.answer firmware = .ok image) : core image = core firmware := by
  obtain ⟨hw, hs⟩ := strip_of_sealFirmware h
  rw [core_of_isWrapped hw, hs, core_stripEnvelope]

/-- Sealing puts a layer on a raw firmware and replaces the outermost layer of an image. -/
theorem layers_of_answer_ok {request : SealRequest} {firmware image : Bytes}
    (h : request.answer firmware = .ok image) : layers image = max 1 (layers firmware) := by
  obtain ⟨hw, hs⟩ := strip_of_sealFirmware h
  rw [layers_of_isWrapped hw, hs, layers_stripEnvelope]
  omega

end SealRequest

/-! ## A run of steps -/

/-- What may be done to a buffer: serve a seal request, or strip. -/
inductive EnvelopeStep where
  | sealWith (request : SealRequest)
  | strip

namespace EnvelopeStep

/-- The buffer after a step; a seal request that fails leaves it alone. -/
def next : EnvelopeStep → Bytes → Bytes
  | .sealWith request, buffer => request.next buffer
  | .strip, buffer => stripEnvelope buffer

/-- The buffer after a sequence of steps. -/
def run (steps : List EnvelopeStep) (buffer : Bytes) : Bytes :=
  steps.foldl (fun current step ↦ step.next current) buffer

/-- No step touches the core. -/
theorem core_next (step : EnvelopeStep) (buffer : Bytes) :
    core (step.next buffer) = core buffer := by
  cases step with
  | sealWith request =>
    change core (request.next buffer) = core buffer
    rcases request.next_eq_or_answer_eq_ok buffer with h | h
    · rw [h]
    · exact SealRequest.core_of_answer_ok h
  | strip => exact core_stripEnvelope buffer

/-- No step adds a layer to a buffer that has one. -/
theorem layers_next_le (step : EnvelopeStep) (buffer : Bytes) :
    layers (step.next buffer) ≤ max 1 (layers buffer) := by
  cases step with
  | sealWith request =>
    change layers (request.next buffer) ≤ max 1 (layers buffer)
    rcases request.next_eq_or_answer_eq_ok buffer with h | h
    · rw [h]
      exact Nat.le_max_right _ _
    · exact Nat.le_of_eq (SealRequest.layers_of_answer_ok h)
  | strip =>
    change layers (stripEnvelope buffer) ≤ max 1 (layers buffer)
    rw [layers_stripEnvelope]
    omega

/-- No sequence of steps touches the core. -/
theorem core_run (steps : List EnvelopeStep) (buffer : Bytes) :
    core (run steps buffer) = core buffer := by
  induction steps generalizing buffer with
  | nil => rfl
  | cons step steps ih => exact (ih (step.next buffer)).trans (step.core_next buffer)

/-- No sequence of steps adds a layer to a buffer that has one. -/
theorem layers_run_le (steps : List EnvelopeStep) (buffer : Bytes) :
    layers (run steps buffer) ≤ max 1 (layers buffer) := by
  induction steps generalizing buffer with
  | nil => exact Nat.le_max_right _ _
  | cons step steps ih =>
    have hrest : layers (run (step :: steps) buffer) ≤ max 1 (layers (step.next buffer)) :=
      ih (step.next buffer)
    have hstep := step.layers_next_le buffer
    omega

end EnvelopeStep

/-- Core and layers are what repeated stripping finds. Sealing keeps the core and leaves at least
one layer, stripping keeps the core and takes one layer; hence no sequence of both ever changes the
core, or gives a second layer to a buffer that had at most one. -/
theorem sealing_and_stripping_keep_core (firmware : Bytes) :
    (isWrapped (core firmware) = false ∧ stripEnvelope^[layers firmware] firmware = core firmware ∧
      ∀ n < layers firmware, isWrapped (stripEnvelope^[n] firmware) = true) ∧
    (∀ signer secretKey options image, sealFirmware signer secretKey firmware options = .ok image →
      core image = core firmware ∧ layers image = max 1 (layers firmware)) ∧
    (core (stripEnvelope firmware) = core firmware ∧
      layers (stripEnvelope firmware) = layers firmware - 1) ∧
    ∀ steps, core (EnvelopeStep.run steps firmware) = core firmware ∧
      (layers firmware ≤ 1 → layers (EnvelopeStep.run steps firmware) ≤ 1) := by
  refine ⟨⟨isWrapped_core firmware, iterate_stripEnvelope_layers firmware,
    fun n hn ↦ isWrapped_iterate_stripEnvelope hn⟩, ?_,
    ⟨core_stripEnvelope firmware, layers_stripEnvelope firmware⟩, ?_⟩
  · intro signer secretKey options image h
    have hr : SealRequest.answer ⟨signer, secretKey, options⟩ firmware = .ok image := h
    exact ⟨SealRequest.core_of_answer_ok hr, SealRequest.layers_of_answer_ok hr⟩
  · intro steps
    refine ⟨EnvelopeStep.core_run steps firmware, ?_⟩
    intro hone
    have hle := EnvelopeStep.layers_run_le steps firmware
    omega

/-- A raw firmware that is sealed gets its first layer, and keeps to one however it is resealed
and stripped. -/
theorem sealing_and_stripping_keep_core_of_empty :
    ∃ image, sealFirmware (.constant (.zero 64)) [] [] {} = .ok image ∧ core image = [] ∧
      layers image = 1 ∧
      layers (EnvelopeStep.run [.sealWith ⟨.constant (.zero 64), [], .release⟩, .strip,
        .sealWith ⟨.digest, [], {}⟩] image) ≤ 1 := by
  obtain ⟨image, h⟩ : ∃ image, sealFirmware (.constant (.zero 64)) [] [] {} = .ok image := ⟨_, rfl⟩
  have hc : core [] = [] := core_of_not_isWrapped rfl
  have hl : layers [] = 0 := layers_of_not_isWrapped rfl
  obtain ⟨hcore, hlayers⟩ := (sealing_and_stripping_keep_core []).2.1 _ _ _ _ h
  rw [hc] at hcore
  rw [hl] at hlayers
  exact ⟨image, h, hcore, hlayers,
    ((sealing_and_stripping_keep_core image).2.2.2 _).2 (Nat.le_of_eq hlayers)⟩

end FirmwareSeal
