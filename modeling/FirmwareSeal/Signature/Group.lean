import FirmwareSeal.Bytes

/-!
# Groups to sign with

What the signature scheme asks of a curve: points that can be added, negated and multiplied by a
number, a base point with the order of its multiples, and a 32-byte encoding that may be decoded.
Signing and verifying use these operations and nothing else of the curve.
-/

namespace FirmwareSeal

/-- The operations of a group of points with a base point and an encoding. -/
structure SigningGroup where
  /-- The points. -/
  Point : Type
  /-- The point whose multiples are keys. -/
  base : Point
  /-- How many multiples the base point has. -/
  order : Nat
  /-- The sum of two points. -/
  add : Point → Point → Point
  /-- The point that cancels a point. -/
  neg : Point → Point
  /-- A point added to itself so many times. -/
  multiple : Nat → Point → Point
  /-- The bytes that stand for a point. -/
  encode : Point → Octets 32
  /-- The point that some bytes stand for, if there is one. -/
  decode? : Octets 32 → Option Point

/-- The binary digits of a number, from the highest; zero has the single digit `false`. -/
def binaryDigits (n : Nat) : List Bool :=
  (List.range (n.log2 + 1)).reverse.map n.testBit

/-- Combines `n` copies of `x` by an associative operation, doubling once for each binary digit. -/
def repeated {α : Type} (op : α → α → α) (unit x : α) (n : Nat) : α :=
  (binaryDigits n).foldl (fun r digit ↦ if digit then op (op r r) x else op r r) unit

end FirmwareSeal
