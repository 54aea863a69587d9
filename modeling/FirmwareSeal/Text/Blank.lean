/-!
# Blanks

The characters that count as empty space in any script, and words without the blanks around them.
-/

namespace FirmwareSeal

/-- Whether a character is a blank: one of the characters that have the property `White_Space`. -/
def isBlank (c : Char) : Bool :=
  let n := c.toNat
  (9 ≤ n && n ≤ 13) || n == 0x20 || n == 0x85 || n == 0xa0 || n == 0x1680 ||
    (0x2000 ≤ n && n ≤ 0x200a) || n == 0x2028 || n == 0x2029 || n == 0x202f || n == 0x205f ||
    n == 0x3000

/-- A word without the blanks at its ends. -/
def trimBlanks (word : List Char) : List Char :=
  ((word.dropWhile isBlank).reverse.dropWhile isBlank).reverse

end FirmwareSeal
