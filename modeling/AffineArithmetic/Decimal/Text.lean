import AffineArithmetic.Decimal.Shortest

/-!
# The text of a number

Numbers are written with their shortest digits and without an exponent: all zeros up to the decimal
point are written out, a whole number has no point, and a negative zero keeps its sign. Reading
takes a sign, digits with at most one point and an exponent, or one of the words for infinity and
the undefined number in any case.
-/

namespace AffineArithmetic.Decimal

/-- The decimal without an exponent. A fraction has at least one digit before its point. -/
def positional (d : Decimal) : List Char :=
  let whole := Nat.toDigits 10 d.significand ++ List.replicate d.exponent.toNat '0'
  let places := (-d.exponent).toNat
  if places = 0 then whole
  else
    let padded := List.replicate (places + 1 - whole.length) '0' ++ whole
    padded.take (padded.length - places) ++ '.' :: padded.drop (padded.length - places)

/-- The text of a number without its sign. -/
def writeMagnitude (x : Float) : List Char :=
  if x.isNaN then ['N', 'a', 'N']
  else if x.isInf then ['i', 'n', 'f']
  else (shortest (Binary64.magnitudeBits x)).positional

/-- The text of a number. -/
def write (x : Float) : List Char :=
  if Binary64.isNegative x && !x.isNaN then '-' :: writeMagnitude x else writeMagnitude x

/-- The value of an exponent: an optional sign and at least one digit. -/
def readExponent? : List Char → Option Int
  | '+' :: ds => natural? ds
  | '-' :: ds => (natural? ds).map (- ·)
  | ds => natural? ds
where
  /-- The value of a non-empty list of digits. -/
  natural? (ds : List Char) : Option Int :=
    if ds ≠ [] ∧ ds.all Char.isDigit then some (Nat.ofDigitChars 10 ds 0) else none

/-- The decimal that a text without a sign stands for: digits, at most one point among or around
them, and perhaps an exponent. -/
def ofUnsigned? (cs : List Char) : Option Decimal :=
  let whole := cs.takeWhile Char.isDigit
  let rest := cs.dropWhile Char.isDigit
  let (fraction, tail) := match rest with
    | '.' :: r => (r.takeWhile Char.isDigit, r.dropWhile Char.isDigit)
    | r => ([], r)
  let significand := Nat.ofDigitChars 10 (whole ++ fraction) 0
  if whole = [] ∧ fraction = [] then none
  else
    match tail with
    | [] => some ⟨significand, -fraction.length⟩
    | e :: r =>
      if e = 'e' ∨ e = 'E' then
        (readExponent? r).map fun exponent ↦ ⟨significand, exponent - fraction.length⟩
      else none

/-- The number that a text without a sign stands for. -/
def readMagnitude? (cs : List Char) : Option Float :=
  let word := String.ofList (cs.map Char.toLower)
  if word = "inf" ∨ word = "infinity" then some (Float.ofBits Binary64.infinityBits.toUInt64)
  else if word = "nan" then some (Float.ofBits 0x7ff8000000000000)
  else (ofUnsigned? cs).map fun d ↦ Float.ofBits d.toBits.toUInt64

/-- The number that a text stands for. -/
def read? : List Char → Option Float
  | '+' :: cs => readMagnitude? cs
  | '-' :: cs => (readMagnitude? cs).map (- ·)
  | cs => readMagnitude? cs

end AffineArithmetic.Decimal
