import FirmwareSeal.Pattern.CharSet

/-!
# Characters as ranges of bytes

The characters of a set, written in UTF-8, are the bytes that some rows of byte ranges let through:
the first byte is in the first range, the next one in the second, whatever the bytes before are. A
range of characters is one row only if it is cut where the number of bytes changes, and where the
bytes behind the first do not take all their values.
-/

namespace FirmwareSeal

namespace CharSet

/-- A range of bytes, both ends included. -/
abbrev ByteRange := UInt8 × UInt8

/-- The two parts of a range that a number separates; the number is in the second part. -/
def cutBefore (n : Nat) (r : Nat × Nat) : List (Nat × Nat) :=
  if r.1 < n ∧ n ≤ r.2 then [(r.1, n - 1), (n, r.2)] else [r]

/-- The parts of a range that some numbers separate. -/
def cutBeforeEach (cuts : List Nat) (r : Nat × Nat) : List (Nat × Nat) :=
  cuts.foldl (fun parts n ↦ parts.flatMap (cutBefore n)) [r]

/-- The parts of a range around the surrogates. -/
def aroundSurrogates (r : Nat × Nat) : List (Nat × Nat) :=
  if r.1 < 0xd800 ∧ 0xdfff < r.2 then [(r.1, 0xd7ff), (0xe000, r.2)] else [r]

/-- The parts of a range where whole blocks of numbers end and begin. -/
def cutAroundBlocks (block : Nat) (r : Nat × Nat) : List (Nat × Nat) :=
  cutBeforeEach [(r.1 + block - 1) / block * block, (r.2 + 1) / block * block] r

/-- The parts of a range in which the bytes of a character do not depend on each other. A byte
behind the first takes 64 values. -/
def rowsOf (r : Nat × Nat) : List (Nat × Nat) :=
  (aroundSurrogates r).flatMap fun r ↦ (cutBeforeEach [0x80, 0x800, 0x10000] r).flatMap fun r ↦
    if r.2 < 0x80 then [r]
    else
      (cutAroundBlocks 64 r).flatMap fun r ↦
        (cutAroundBlocks (64 * 64) r).flatMap (cutAroundBlocks (64 * 64 * 64))

/-- The ranges of the bytes of the characters between the ends of a row. -/
def bytesOfRow (r : Nat × Nat) : List ByteRange :=
  (String.utf8EncodeChar (Char.ofNat r.1)).zip (String.utf8EncodeChar (Char.ofNat r.2))

/-- The rows of byte ranges of a set, in the order of its ranges. -/
def byteRows (s : CharSet) : List (List ByteRange) :=
  s.ranges.flatMap fun r ↦ (rowsOf r).map bytesOfRow

end CharSet

end FirmwareSeal
