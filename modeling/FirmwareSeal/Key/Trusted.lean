import FirmwareSeal.Bytes

/-!
# The keys that the bootloader trusts

A trusted key is a public key with a four-letter role tag. The table lists them in the slot order
of the bootloader; every sealed header carries its 144 bytes.
-/

namespace FirmwareSeal

/-- A public key and the tag of its role. -/
structure TrustedKey where
  key : Octets 32
  tag : Octets 4
  deriving DecidableEq

namespace TrustedKey

/-- The bytes of a table entry: key, then tag. -/
def toOctets (k : TrustedKey) : Octets 36 := k.key.append k.tag

/-- The tag as text without the zero bytes at its end, or a question mark if it is no text. -/
def tagText (k : TrustedKey) : String :=
  match String.fromUTF8? ⟨k.tag.toList.toArray⟩ with
  | some text => String.ofList (text.toList.reverse.dropWhile (· == '\x00')).reverse
  | none => "?"

/-- The slot that is not used. -/
def unused : TrustedKey := ⟨Octets.zero 32, Octets.zero 4⟩

/-- The production release key, tagged `bao2`. -/
def production : TrustedKey where
  key := ⟨[0x79, 0x13, 0x5d, 0xc6, 0x67, 0xaf, 0xf4, 0xf7, 0xd3, 0x52, 0xb9, 0x03, 0x28, 0x78, 0x8e,
    0xbf, 0x92, 0xc7, 0x86, 0x78, 0x21, 0x38, 0xb3, 0x77, 0x37, 0x0b, 0x15, 0x19, 0x4e, 0x31,
    0x28, 0x88], rfl⟩
  tag := ⟨[0x62, 0x61, 0x6f, 0x32], rfl⟩

/-- The beta release key, tagged `beta`. -/
def beta : TrustedKey where
  key := ⟨[0x80, 0x97, 0x99, 0x29, 0xed, 0xd0, 0x4e, 0x40, 0x12, 0x4b, 0x52, 0xca, 0xe9, 0xae, 0x54,
    0xb2, 0x4b, 0xdf, 0xf7, 0x2a, 0x7b, 0x8a, 0x00, 0x4c, 0x41, 0x06, 0x5b, 0xd1, 0x40, 0x20,
    0x78, 0xa7], rfl⟩
  tag := ⟨[0x62, 0x65, 0x74, 0x61], rfl⟩

/-- The development key, tagged `dev` and a space; its secret half is public. -/
def development : TrustedKey where
  key := ⟨[0x1c, 0x9b, 0xea, 0xe3, 0x2a, 0xea, 0xc8, 0x75, 0x07, 0xc1, 0x80, 0x94, 0x38, 0x7e, 0xff,
    0x1c, 0x74, 0x61, 0x42, 0x82, 0xaf, 0xfd, 0x81, 0x52, 0xd8, 0x71, 0x35, 0x2e, 0xdf, 0x3f,
    0x58, 0xbb], rfl⟩
  tag := ⟨[0x64, 0x65, 0x76, 0x20], rfl⟩

end TrustedKey

/-- The trusted keys in slot order. -/
def trustedKeys : List TrustedKey :=
  [.unused, .production, .beta, .development]

/-- The bytes of all table entries in slot order. -/
def keyTable : Octets 144 :=
  ⟨trustedKeys.flatMap fun k ↦ k.toOctets.toList, by simp [trustedKeys]⟩

end FirmwareSeal
