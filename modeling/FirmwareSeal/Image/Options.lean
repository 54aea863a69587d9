import FirmwareSeal.Bytes

/-!
# What goes into a sealed header beside the payload

The function code tells the bootloader what kind of program an image holds; the two semantic
versions are the oldest bootloader that may run it and the version of the image itself.
-/

namespace FirmwareSeal

/-- The kinds of program that the bootloader knows. -/
inductive FunctionCode where
  | invalid
  | boot0
  | boot1
  | updatedBoot1
  | loader
  | updatedLoader
  | baremetal
  | updatedBaremetal
  | kernel
  | updatedKernel
  | app
  | updatedApp
  | developer
  deriving DecidableEq

/-- The word that stands for a kind of program in the header. -/
def FunctionCode.word : FunctionCode → UInt32
  | .invalid => 0
  | .boot0 => 1
  | .boot1 => 2
  | .updatedBoot1 => 3
  | .loader => 4
  | .updatedLoader => 5
  | .baremetal => 6
  | .updatedBaremetal => 7
  | .kernel => 0x100
  | .updatedKernel => 0x101
  | .app => 0x100000
  | .updatedApp => 0x100001
  | .developer => 0x10000000

/-- The metadata of an image: any function code, zero included, and two versions of 16 bytes.
Without more ado an image is a bare metal program with zero versions. -/
structure SealOptions where
  functionCode : UInt32 := FunctionCode.baremetal.word
  minSemver : Octets 16 := Octets.zero 16
  semver : Octets 16 := Octets.zero 16
  deriving DecidableEq

namespace SealOptions

/-- The oldest bootloader version that release images ask for. -/
def releaseMinSemver : Octets 16 :=
  ⟨[0x00, 0x00, 0x09, 0x00, 0x08, 0x00, 0x17, 0x03, 0x00, 0x00, 0x00, 0x00, 0x00, 0x00, 0x00, 0x00],
    rfl⟩

/-- The version stamped into release images. -/
def releaseSemver : Octets 16 :=
  ⟨[0x00, 0x00, 0x09, 0x00, 0x10, 0x00, 0xfc, 0x09, 0xf2, 0x29, 0xf5, 0x47, 0x01, 0x00, 0x00, 0x00],
    rfl⟩

/-- The options of release images: bare metal with the release versions. -/
def release : SealOptions where
  minSemver := releaseMinSemver
  semver := releaseSemver

end SealOptions

end FirmwareSeal
