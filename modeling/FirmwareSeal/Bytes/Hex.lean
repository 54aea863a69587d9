import FirmwareSeal.Bytes

/-!
# Hexadecimal text

Bytes written as two lowercase digits each (`hexText`), and read back (`ofHex?`).
-/

namespace FirmwareSeal

/-- The digits, by value. -/
def hexDigit (n : Nat) : Char :=
  if n < 10 then Char.ofNat ('0'.toNat + n) else Char.ofNat ('a'.toNat + (n - 10))

/-- The value of a lowercase digit. -/
def hexValue? (c : Char) : Option Nat :=
  if '0' ≤ c ∧ c ≤ '9' then some (c.toNat - '0'.toNat)
  else if 'a' ≤ c ∧ c ≤ 'f' then some (c.toNat - 'a'.toNat + 10)
  else none

/-- Two digits for each byte, high half first. -/
def hexDigits (bytes : Bytes) : List Char :=
  bytes.flatMap fun b ↦ [hexDigit (b.toNat / 16), hexDigit (b.toNat % 16)]

/-- The hexadecimal text of a byte string. -/
def hexText (bytes : Bytes) : String := String.ofList (hexDigits bytes)

/-- Reads pairs of digits as bytes; an odd digit or another character is refused. -/
def ofHexDigits? : List Char → Option Bytes
  | [] => some []
  | [_] => none
  | high :: low :: rest =>
    match hexValue? high, hexValue? low, ofHexDigits? rest with
    | some h, some l, some bytes => some (UInt8.ofNat (16 * h + l) :: bytes)
    | _, _, _ => none

/-- The bytes that a hexadecimal text stands for. -/
def ofHex? (text : String) : Option Bytes := ofHexDigits? text.toList

end FirmwareSeal
