/-
Rounding to double precision.

A fraction `num / den` is placed in its binade: the greatest `k` with
`2 ^ k ≤ num / den`, but never below the least normal one. The doubles of that binade
are the multiples of `2 ^ (k - 52)`, so the nearest double is the quotient by that
unit rounded to an integer, an exact half going to the even neighbour. The magnitude
is then `52`-bit blocks counted up from the subnormal unit plus that integer. A
quotient that rounds up to the next binade carries into the exponent bits by plain
addition, and one past the greatest finite number is cut at the infinity.
-/
import DataLisp.Binary64.Basic
import DataLisp.Numeral

set_option autoImplicit false

namespace DataLisp.Binary64

/-- The quotient rounded to the nearest integer, an exact half to the even one. -/
def roundQuotient (num den : Nat) : Nat :=
  let low := num / den
  let twice := 2 * (num % den)
  if twice < den then low
  else if den < twice then low + 1
  else low + low % 2

/-- The greatest `k` with `2 ^ k ≤ num / den`, for positive arguments. The difference
of the binary orders is that `k` or one more. -/
def binade (num den : Nat) : Int :=
  let k : Int := (num.log2 : Int) - den.log2
  if den * twoTo k.toNat ≤ num * twoTo (-k).toNat then k else k - 1

/-- The magnitude of the double nearest to `num / den`, for a positive `den`. -/
def nearestMagnitude (num den : Nat) : Nat :=
  let unit : Int := max (binade num den) (-1022) - 52
  let count := roundQuotient (num * twoTo (-unit).toNat) (den * twoTo unit.toNat)
  min ((unit + 1074).toNat * exponentWeight + count) infinityMagnitude

/-- The double nearest to `± num / den`. -/
def ofQuotient (negative : Bool) (num den : Nat) : Binary64 where
  negative := negative
  magnitude := if num = 0 then 0 else nearestMagnitude num den
  magnitude_lt := by
    split
    · decide
    · exact Nat.lt_of_le_of_lt (Nat.min_le_right _ _) infinityMagnitude_lt

/-- The double nearest to an integer. -/
def ofInt (z : Int) : Binary64 :=
  ofQuotient (z < 0) z.natAbs 1

/-- The number of decimal digits of a natural number. -/
def decimalLength (n : Nat) : Nat :=
  (Nat.toDigits 10 n).length

/-- The double nearest to `± digits * 10 ^ scale`. With `n` digits the value is below
`10 ^ (n + scale)` and at least a tenth of that, so far out the answer is known
without building the power of ten: the greatest double is below `10 ^ 309`, and
everything below `10 ^ (-324)` rounds to zero. -/
def ofDecimal (negative : Bool) (digits : Nat) (scale : Int) : Binary64 :=
  let order : Int := decimalLength digits + scale
  if digits = 0 then zero negative
  else if 310 < order then infinity negative
  else if order < -330 then zero negative
  else ofQuotient negative (digits * tenTo scale.toNat) (tenTo (-scale).toNat)

/-- The product of two finite doubles, rounded. -/
def mul (x y : Binary64) : Binary64 :=
  ofQuotient (x.negative != y.negative) (x.numerator * y.numerator) (x.denominator * y.denominator)

/-- The quotient of two finite doubles, rounded. The divisor is no zero. -/
def div (x y : Binary64) : Binary64 :=
  ofQuotient (x.negative != y.negative) (x.numerator * y.denominator) (x.denominator * y.numerator)

/-- The double nearest to a power of ten. -/
def ofPowerOfTen (k : Nat) : Binary64 :=
  ofQuotient false (tenTo k) 1

end DataLisp.Binary64

/-- The double that a numeral denotes, correctly rounded. -/
def DataLisp.Numeral.toBinary64 (n : DataLisp.Numeral) : DataLisp.Binary64 :=
  DataLisp.Binary64.ofDecimal n.negative n.mantissa n.scale
