/-
Double precision numbers.

A number is a sign and a magnitude: the 63 bits below the sign bit, read as one
natural number. Magnitudes of finite numbers are ordered as the numbers are, the
infinity comes right after the greatest finite one, and whatever lies above the
infinity is not a number. The representation is a plain structure, so that "the same
float, bit for bit" is equality of terms; equality of the arithmetic (where a NaN
differs from itself and the two zeros agree) is the separate relation `sameNumber`.
-/
import DataLisp.Power

set_option autoImplicit false

namespace DataLisp

/-- The weight of the sign bit, two to the power of 63. -/
abbrev signWeight : Nat := 0x8000000000000000

/-- The weight of the lowest exponent bit, two to the power of 52. -/
abbrev exponentWeight : Nat := 0x10000000000000

/-- A double precision number: its sign bit, and the 63 bits below it as a number. -/
structure Binary64 where
  negative : Bool
  magnitude : Nat
  magnitude_lt : magnitude < signWeight
deriving DecidableEq, Repr

namespace Binary64

/-- The magnitude of the infinities: all exponent bits set, all fraction bits clear. -/
def infinityMagnitude : Nat := 2047 * exponentWeight

theorem infinityMagnitude_lt : infinityMagnitude < signWeight := by decide

/-- A zero of either sign. -/
def zero (negative : Bool) : Binary64 :=
  ⟨negative, 0, by decide⟩

/-- An infinity of either sign. -/
def infinity (negative : Bool) : Binary64 :=
  ⟨negative, infinityMagnitude, infinityMagnitude_lt⟩

instance : Inhabited Binary64 := ⟨zero false⟩

/-! ## Bits -/

/-- The number with the given 64 bits. -/
def ofBits (bits : UInt64) : Binary64 where
  negative := signWeight ≤ bits.toNat
  magnitude := bits.toNat % signWeight
  magnitude_lt := Nat.mod_lt _ (by decide)

/-- The 64 bits of a number. -/
def toBits (x : Binary64) : UInt64 :=
  UInt64.ofNat ((if x.negative then signWeight else 0) + x.magnitude)

/-! ## Classes -/

/-- Neither an infinity nor a NaN. -/
def isFinite (x : Binary64) : Bool :=
  x.magnitude < infinityMagnitude

/-- Not a number. -/
def isNaN (x : Binary64) : Bool :=
  infinityMagnitude < x.magnitude

/-- A zero of either sign. -/
def isZero (x : Binary64) : Bool :=
  x.magnitude = 0

/-- Equality of numbers: a NaN equals nothing, and the two zeros are one number. -/
def sameNumber (x y : Binary64) : Bool :=
  !x.isNaN && !y.isNaN && ((x.isZero && y.isZero) || x = y)

/-! ## Value

A finite number is `significand * 2 ^ exponent`, with its sign. The exponent bits
`0` and `1` share one exponent; the bits from `1` on add the leading bit. -/

/-- The integer factor of the value. -/
def significand (x : Binary64) : Nat :=
  if x.magnitude < exponentWeight then x.magnitude
  else x.magnitude % exponentWeight + exponentWeight

/-- The power of two of the value. -/
def exponent (x : Binary64) : Int :=
  (max (x.magnitude / exponentWeight) 1 : Nat) - 1075

/-- The numerator of the absolute value as a fraction. -/
def numerator (x : Binary64) : Nat :=
  x.significand * twoTo x.exponent.toNat

/-- The denominator of the absolute value as a fraction, a power of two. -/
def denominator (x : Binary64) : Nat :=
  twoTo (-x.exponent).toNat

end Binary64

end DataLisp
