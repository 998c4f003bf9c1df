/-!
# Blank characters

The characters with the Unicode property `White_Space`, and `trim`, which drops
them from both ends of a text.

    isBlank c ↔ c is one of the 25 White_Space characters
    trim s = the part of s between its first and its last other character
-/

namespace YieldMachine.Text

/-! ## Algorithm -/

/-- The 25 characters with the Unicode property `White_Space`. -/
def isBlank (c : Char) : Bool :=
  let n := c.toNat
  (9 ≤ n && n ≤ 13) || n == 0x20 || n == 0x85 || n == 0xa0 || n == 0x1680 ||
    (0x2000 ≤ n && n ≤ 0x200a) || n == 0x2028 || n == 0x2029 || n == 0x202f || n == 0x205f ||
    n == 0x3000

/-- Drop blanks from both ends of a list of characters. -/
def trimChars (cs : List Char) : List Char :=
  ((cs.dropWhile isBlank).reverse.dropWhile isBlank).reverse

/-- Drop blanks from both ends. -/
def trim (s : String) : String :=
  String.ofList (trimChars s.toList)

end YieldMachine.Text
