import FirmwareSeal.Proofs.Image.Detection
import Mathlib.Data.List.Induction

/-!
# Sealing the same buffer again and again

Seal requests are served on one buffer: an image replaces what was there, and a failed request
leaves it alone. Sealing depends on the buffer through its payload only, and no request changes
the payload. So the requests do not see each other, and the last one that succeeds decides what
the buffer holds.
-/

namespace FirmwareSeal

/-- Who seals a buffer, with which key and which metadata. -/
structure SealRequest where
  signer : Signer
  secretKey : Bytes
  options : SealOptions

namespace SealRequest

/-- What a request gets for a buffer: the sealed image, or why there is none. -/
def answer (request : SealRequest) (buffer : Bytes) : Except SigningError Bytes :=
  sealFirmware request.signer request.secretKey buffer request.options

/-- What a request leaves in the buffer. -/
def next (request : SealRequest) (buffer : Bytes) : Bytes :=
  match request.answer buffer with
  | .ok image => image
  | .error _ => buffer

/-- The answers to requests that are served one after the other, each on what the last one left. -/
def answers : List SealRequest → Bytes → List (Except SigningError Bytes)
  | [], _ => []
  | request :: rest, buffer => request.answer buffer :: answers rest (request.next buffer)

/-- What requests leave in the buffer when all of them have been served. -/
def bufferAfter (requests : List SealRequest) (buffer : Bytes) : Bytes :=
  requests.foldl (fun current request ↦ request.next current) buffer

/-! ## One request -/

/-- A request that succeeds leaves its image. -/
theorem next_of_answer_ok {request : SealRequest} {buffer image : Bytes}
    (h : request.answer buffer = .ok image) : request.next buffer = image := by
  rw [next, h]

/-- A request that fails changes nothing. -/
theorem next_of_answer_error {request : SealRequest} {buffer : Bytes} {e : SigningError}
    (h : request.answer buffer = .error e) : request.next buffer = buffer := by
  rw [next, h]

/-- A request either changes nothing or leaves the image that it gets. -/
theorem next_eq_or_answer_eq_ok (request : SealRequest) (buffer : Bytes) :
    request.next buffer = buffer ∨ request.answer buffer = .ok (request.next buffer) := by
  cases h : request.answer buffer with
  | ok image => exact .inr (congrArg Except.ok (next_of_answer_ok h).symm)
  | error e => exact .inl (next_of_answer_error h)

/-- Buffers with one payload get one answer. -/
theorem answer_congr (request : SealRequest) {a b : Bytes}
    (h : stripEnvelope a = stripEnvelope b) : request.answer a = request.answer b := by
  unfold answer
  rw [sealFirmware_eq_signAndWrap, sealFirmware_eq_signAndWrap, h]

/-- No request changes the payload. -/
theorem stripEnvelope_next (request : SealRequest) (buffer : Bytes) :
    stripEnvelope (request.next buffer) = stripEnvelope buffer := by
  rcases request.next_eq_or_answer_eq_ok buffer with h | h
  · rw [h]
  · exact (strip_of_sealFirmware h).2

/-! ## A run of requests -/

/-- A run leaves what its last request leaves on the result of the others. -/
theorem bufferAfter_concat (requests : List SealRequest) (request : SealRequest)
    (buffer : Bytes) :
    bufferAfter (requests ++ [request]) buffer = request.next (bufferAfter requests buffer) := by
  rw [bufferAfter, List.foldl_append]
  rfl

/-- No run changes the payload. -/
theorem stripEnvelope_bufferAfter (requests : List SealRequest) (buffer : Bytes) :
    stripEnvelope (bufferAfter requests buffer) = stripEnvelope buffer := by
  induction requests using List.reverseRecOn with
  | nil => rfl
  | append_singleton requests request ih =>
    rw [bufferAfter_concat, stripEnvelope_next, ih]

/-- A request that succeeds at the start leaves that image at the end of any run. -/
theorem bufferAfter_concat_of_ok {request : SealRequest} {start image : Bytes}
    (requests : List SealRequest) (h : request.answer start = .ok image) :
    bufferAfter (requests ++ [request]) start = image := by
  have ha := request.answer_congr (stripEnvelope_bufferAfter requests start)
  rw [bufferAfter_concat, next_of_answer_ok (ha.trans h)]

/-- A request that fails at the start changes nothing at the end of any run. -/
theorem bufferAfter_concat_of_error {request : SealRequest} {start : Bytes} {e : SigningError}
    (requests : List SealRequest) (h : request.answer start = .error e) :
    bufferAfter (requests ++ [request]) start = bufferAfter requests start := by
  have ha := request.answer_congr (stripEnvelope_bufferAfter requests start)
  rw [bufferAfter_concat, next_of_answer_error (ha.trans h)]

/-- Each request of a run gets the answer that it would get for the buffer at the start. -/
theorem answers_eq_map (requests : List SealRequest) (start : Bytes) :
    answers requests start = requests.map (·.answer start) := by
  -- The buffer changes from step to step, but its payload stays that of the start.
  have run (buffer : Bytes) (h : stripEnvelope buffer = stripEnvelope start) :
      answers requests buffer = requests.map (·.answer start) := by
    induction requests generalizing buffer with
    | nil => rfl
    | cons request rest ih =>
      rw [answers, List.map_cons, request.answer_congr h,
        ih (request.next buffer) ((request.stripEnvelope_next buffer).trans h)]
  exact run start rfl

/-- In a run each request is answered as if it were the first, and the buffer at the end is the
image of the last request that succeeds, or what it was if none does. -/
theorem last_successful_seal_wins (requests : List SealRequest) (start : Bytes) :
    answers requests start = requests.map (·.answer start) ∧
      ((∀ request ∈ requests, ∃ e, request.answer start = .error e) ∧
          bufferAfter requests start = start ∨
        ∃ earlier last later, requests = earlier ++ last :: later ∧
          last.answer start = .ok (bufferAfter requests start) ∧
          ∀ request ∈ later, ∃ e, request.answer start = .error e) := by
  refine ⟨answers_eq_map requests start, ?_⟩
  -- From the right: the last request decides if it succeeds, and else the run before it does.
  induction requests using List.reverseRecOn with
  | nil => exact .inl ⟨List.forall_mem_nil _, rfl⟩
  | append_singleton requests request ih =>
    cases h : request.answer start with
    | ok image =>
      refine .inr ⟨requests, request, [], rfl, ?_, List.forall_mem_nil _⟩
      rw [bufferAfter_concat_of_ok requests h, h]
    | error e =>
      have hfails {rest : List SealRequest}
          (hrest : ∀ r ∈ rest, ∃ e, r.answer start = .error e) :
          ∀ r ∈ rest ++ [request], ∃ e, r.answer start = .error e :=
        List.forall_mem_append.mpr ⟨hrest, List.forall_mem_singleton.mpr ⟨e, h⟩⟩
      rw [bufferAfter_concat_of_error requests h]
      rcases ih with ⟨hall, hstart⟩ | ⟨earlier, last, later, rfl, hlast, hlater⟩
      · exact .inl ⟨hfails hall, hstart⟩
      · refine .inr ⟨earlier, last, later ++ [request], ?_, hlast, hfails hlater⟩
        rw [List.append_assoc, List.cons_append]

end SealRequest

end FirmwareSeal
