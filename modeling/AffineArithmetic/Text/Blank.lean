/-!
# White space

The characters with the Unicode property `White_Space`, and skipping a run of them.
-/

namespace AffineArithmetic.Text

/-- The ranges of code points with the property, in ascending order. -/
def blankRanges : List (Nat × Nat) :=
  [(0x9, 0xd), (0x20, 0x20), (0x85, 0x85), (0xa0, 0xa0), (0x1680, 0x1680), (0x2000, 0x200a),
    (0x2028, 0x2029), (0x202f, 0x202f), (0x205f, 0x205f), (0x3000, 0x3000)]

/-- Whether a character is white space. -/
def isBlank (c : Char) : Bool :=
  blankRanges.any fun r ↦ r.1 ≤ c.toNat && c.toNat ≤ r.2

/-- The text after its leading white space. -/
def skipBlank (cs : List Char) : List Char := cs.dropWhile isBlank

end AffineArithmetic.Text
