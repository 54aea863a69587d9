import FirmwareSeal.Bytes

/-!
# Numbers as bytes

A natural number is written as a fixed count of bytes, least significant first
(`toLittle`) or most significant first (`toBig`), dropping what does not fit. Reading a list back
(`ofLittle`, `ofBig`) takes all of its bytes. `littleWord` and `wordAt` are the 32-bit words of the
image and flash layouts.
-/

namespace FirmwareSeal

/-- The low `n` bytes of a number, least significant first. -/
def toLittle : Nat → Nat → Bytes
  | 0, _ => []
  | n + 1, value => UInt8.ofNat value :: toLittle n (value / 256)

/-- The number whose bytes are listed from the least significant. -/
def ofLittle : Bytes → Nat
  | [] => 0
  | b :: rest => b.toNat + 256 * ofLittle rest

/-- The low `n` bytes of a number, most significant first. -/
def toBig (n value : Nat) : Bytes := (toLittle n value).reverse

/-- The number whose bytes are listed from the most significant. -/
def ofBig (bytes : Bytes) : Nat := ofLittle bytes.reverse

/-- A written number has the requested count of bytes. -/
@[simp] theorem length_toLittle (n value : Nat) : (toLittle n value).length = n := by
  induction n generalizing value with
  | zero => rfl
  | succ n ih => simp [toLittle, ih]

/-- A number written from the top has the requested count of bytes. -/
@[simp] theorem length_toBig (n value : Nat) : (toBig n value).length = n := by
  simp [toBig]

/-- Reading a written number gives its low bytes. -/
theorem ofLittle_toLittle (n value : Nat) : ofLittle (toLittle n value) = value % Nat.pow 256 n := by
  induction n generalizing value with
  | zero => simp [toLittle, ofLittle, Nat.mod_one]
  | succ n ih =>
    rw [toLittle, ofLittle, ih, UInt8.toNat_ofNat']
    change value % 256 + 256 * (value / 256 % 256 ^ n) = value % 256 ^ (n + 1)
    rw [Nat.pow_succ', Nat.mod_mul]

/-- A number that fits is read back as it was. -/
theorem ofLittle_toLittle_of_lt {n value : Nat} (h : value < Nat.pow 256 n) :
    ofLittle (toLittle n value) = value := by
  rw [ofLittle_toLittle, Nat.mod_eq_of_lt h]

/-- Writing the number read from a list gives the list back. -/
theorem toLittle_ofLittle (bytes : Bytes) : toLittle bytes.length (ofLittle bytes) = bytes := by
  induction bytes with
  | nil => rfl
  | cons b rest ih =>
    have hb : b.toNat < 256 := b.toNat_lt
    simp only [List.length_cons, toLittle, ofLittle]
    congr 1
    · apply UInt8.toNat_inj.mp
      simp
    · rw [Nat.add_mul_div_left _ _ (by omega), Nat.div_eq_of_lt hb, Nat.zero_add, ih]

/-! ## Words of 32 bits -/

/-- The four bytes of a word, least significant first. -/
def littleWord (w : UInt32) : Bytes := toLittle 4 w.toNat

/-- The word whose four bytes start at an offset, least significant first. -/
def wordAt (bytes : Bytes) (offset : Nat) : UInt32 :=
  UInt32.ofNat (ofLittle ((bytes.drop offset).take 4))

/-- A word takes four bytes. -/
@[simp] theorem length_littleWord (w : UInt32) : (littleWord w).length = 4 := length_toLittle 4 _

/-- The number read from the bytes of a word is the word's. -/
theorem ofLittle_littleWord (w : UInt32) : ofLittle (littleWord w) = w.toNat :=
  ofLittle_toLittle_of_lt w.toNat_lt

/-- A word is read back where it was written. -/
theorem wordAt_append {bytes : Bytes} {offset : Nat} (h : bytes.length = offset) (w : UInt32)
    (rest : Bytes) : wordAt (bytes ++ (littleWord w ++ rest)) offset = w := by
  have hw : (littleWord w).length = 4 := length_littleWord w
  unfold wordAt
  rw [← h, List.drop_left, ← hw, List.take_left, ofLittle_littleWord, UInt32.ofNat_toNat]

/-- Different words are written differently. -/
theorem littleWord_inj {v w : UInt32} (h : littleWord v = littleWord w) : v = w := by
  have e := congrArg ofLittle h
  rw [ofLittle_littleWord, ofLittle_littleWord] at e
  exact UInt32.toNat_inj.mp e

end FirmwareSeal
