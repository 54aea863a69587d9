import FirmwareSeal.Bytes

/-!
# Base64 text

Decoding of the standard alphabet: four characters stand for three bytes, a last group may stand
for one or two bytes and is then filled up with `=`, and the bits it does not use are zero.
-/

namespace FirmwareSeal

/-- The six bits that a character of the alphabet stands for. -/
def base64Value? (c : Char) : Option Nat :=
  if 'A' ≤ c ∧ c ≤ 'Z' then some (c.toNat - 'A'.toNat)
  else if 'a' ≤ c ∧ c ≤ 'z' then some (c.toNat - 'a'.toNat + 26)
  else if '0' ≤ c ∧ c ≤ '9' then some (c.toNat - '0'.toNat + 52)
  else if c = '+' then some 62
  else if c = '/' then some 63
  else none

/-- The bytes of a group of four characters; only the last group may be filled up. -/
def base64Group? (isLast : Bool) (c₀ c₁ c₂ c₃ : Char) : Option Bytes := do
  let v₀ ← base64Value? c₀
  let v₁ ← base64Value? c₁
  let first := UInt8.ofNat (v₀ * 4 + v₁ / 16)
  if isLast && c₂ == '=' && c₃ == '=' then
    if v₁ % 16 = 0 then some [first] else none
  else
    let v₂ ← base64Value? c₂
    let second := UInt8.ofNat (v₁ % 16 * 16 + v₂ / 4)
    if isLast && c₃ == '=' then
      if v₂ % 4 = 0 then some [first, second] else none
    else
      let v₃ ← base64Value? c₃
      some [first, second, UInt8.ofNat (v₂ % 4 * 64 + v₃)]

/-- The bytes that a text stands for; a text that is not made of whole groups is refused. -/
def ofBase64? : List Char → Option Bytes
  | [] => some []
  | c₀ :: c₁ :: c₂ :: c₃ :: rest => do
    let group ← base64Group? rest.isEmpty c₀ c₁ c₂ c₃
    let bytes ← ofBase64? rest
    some (group ++ bytes)
  | _ => none

end FirmwareSeal
