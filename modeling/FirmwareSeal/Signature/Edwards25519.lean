import FirmwareSeal.Bytes.Endian
import FirmwareSeal.Signature.Group

/-!
# The curve edwards25519

The twisted Edwards curve `-x² + y² = 1 + d x² y²` over the integers modulo `2²⁵⁵ - 19`. Points
are affine pairs, so each has one representation; multiples are computed in extended coordinates,
which need no division, and turned back into a pair at the end. An encoding is the `y` coordinate,
least significant byte first, with the parity of `x` in the top bit. Decoding reduces `y` modulo
the field size and takes the sign bit also where `x` is zero.
-/

namespace FirmwareSeal

namespace Edwards25519

/-- The number of field elements, a prime. -/
abbrev fieldSize : Nat := Nat.pow 2 255 - 19

instance : @NeZero Nat Zero.ofOfNat0 fieldSize := ⟨Nat.succ_ne_zero (Nat.pow 2 255 - 20)⟩

/-- A coordinate: an integer modulo the field size. -/
abbrev Coordinate := Fin fieldSize

/-- A coordinate multiplied by itself so many times. -/
def power (x : Coordinate) (n : Nat) : Coordinate := repeated (· * ·) 1 x n

/-- The reciprocal of a coordinate, and zero for zero. -/
def inverse (x : Coordinate) : Coordinate := power x (fieldSize - 2)

/-- The constant of the curve equation, which is not a square. -/
def d : Coordinate :=
  37095705934669439343138083508754565189542113879843219016388785533085940283555

/-- A coordinate whose square is minus one. -/
def rootOfMinusOne : Coordinate :=
  19681161376707505956807079304988542015446066515923890162744021073123829784752

/-- A pair of coordinates, meant to satisfy the curve equation. -/
structure Point where
  x : Coordinate
  y : Coordinate
  deriving DecidableEq

namespace Point

/-- The neutral point. -/
def zero : Point := ⟨0, 1⟩

/-- The base point. -/
def base : Point :=
  ⟨15112221349535400772501151409588531511454012693041857206046113283949847762202,
    46316835694926478169428394003475163141307993866256225615783033603165251855960⟩

/-- The addition law of the curve. -/
def add (p q : Point) : Point :=
  let xx := p.x * q.x
  let yy := p.y * q.y
  let k := d * xx * yy
  ⟨(p.x * q.y + p.y * q.x) * inverse (1 + k), (yy + xx) * inverse (1 - k)⟩

/-- The point with the opposite `x`, which cancels a point. -/
def neg (p : Point) : Point := ⟨-p.x, p.y⟩

end Point

/-- A point in extended coordinates: `x = X / Z`, `y = Y / Z` and `x y = T / Z`. -/
structure Extended where
  X : Coordinate
  Y : Coordinate
  Z : Coordinate
  T : Coordinate

namespace Extended

/-- The neutral point. -/
def zero : Extended := ⟨0, 1, 1, 0⟩

/-- A pair in extended coordinates. -/
def ofPoint (p : Point) : Extended := ⟨p.x, p.y, 1, p.x * p.y⟩

/-- The pair that extended coordinates stand for. -/
def toPoint (p : Extended) : Point :=
  let w := inverse p.Z
  ⟨p.X * w, p.Y * w⟩

/-- The addition law without division; it holds for equal points too. -/
def add (p q : Extended) : Extended :=
  let a := (p.Y - p.X) * (q.Y - q.X)
  let b := (p.Y + p.X) * (q.Y + q.X)
  let c := 2 * d * p.T * q.T
  let z := 2 * p.Z * q.Z
  let e := b - a
  let f := z - c
  let g := z + c
  let h := b + a
  ⟨e * f, g * h, f * g, e * h⟩

end Extended

/-- A point added to itself so many times. -/
def multiple (n : Nat) (p : Point) : Point :=
  (repeated Extended.add Extended.zero (Extended.ofPoint p) n).toPoint

/-! ## Encoding -/

/-- The `y` coordinate with the parity of `x` in the top bit. -/
def encode (p : Point) : Octets 32 :=
  ⟨toLittle 32 (p.y.val + Nat.pow 2 255 * (p.x.val % 2)), length_toLittle 32 _⟩

/-- An even root of `u / v`, for `v` not zero, if there is a root. -/
def evenRoot? (u v : Coordinate) : Option Coordinate :=
  let candidate := u * power v 3 * power (u * power v 7) ((fieldSize - 5) / 8)
  let square := v * candidate * candidate
  let root? :=
    if square = u then some candidate
    else if square = -u then some (candidate * rootOfMinusOne)
    else none
  root?.map fun root ↦ if root.val % 2 = 0 then root else -root

/-- The point with the encoded `y` and parity, if the curve has one with that `y`. -/
def decode? (bytes : Octets 32) : Option Point :=
  let n := ofLittle bytes.toList
  let y : Coordinate := Fin.ofNat fieldSize (n % Nat.pow 2 255)
  (evenRoot? (y * y - 1) (d * y * y + 1)).map fun x ↦
    ⟨if n / Nat.pow 2 255 = 1 then -x else x, y⟩

end Edwards25519

/-- The curve edwards25519 with its base point, whose multiples number a prime near `2²⁵²`. -/
def edwards25519 : SigningGroup where
  Point := Edwards25519.Point
  base := Edwards25519.Point.base
  order := Nat.pow 2 252 + 27742317777372353535851937790883648493
  add := Edwards25519.Point.add
  neg := Edwards25519.Point.neg
  multiple := Edwards25519.multiple
  encode := Edwards25519.encode
  decode? := Edwards25519.decode?

end FirmwareSeal
