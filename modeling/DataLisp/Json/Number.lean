/-
Numbers of JSON text.

What is written as an integer is one if 64 bits hold it. Every other number is read as a
double, and in two steps, which is fast but rounds twice. First as many digits are taken
as an unsigned integer of 64 bits holds, and this significand is rounded to a double; of
the digits left over only the places count. Then the double is multiplied or divided by
the double nearest to a power of ten.

So the double is not always the one nearest to what is written: `1e-23` comes out as the
upper neighbour of the double that is written so. A number too great for a double is an
error; one too small is a zero.
-/
import DataLisp.Binary64.Shortest
import DataLisp.Json.Basic

set_option autoImplicit false

namespace DataLisp.Json

/-- The 64-bit integer that a numeral writes. A zero with a minus is a float. -/
def integer? (n : Numeral) : Option Int64 :=
  if n.isInteger && !(n.negative && n.mantissa = 0) then n.toInt64? else none

/-! ## Floats -/

/-- Appends digits to a significand for as long as 64 bits hold it, and returns what is
left of them. -/
def takeDigits (significand : Nat) : List Char → Nat × List Char
  | [] => (significand, [])
  | c :: rest =>
    let next := Nat.ofDigitChars 10 [c] significand
    if next < UInt64.size then takeDigits next rest else (significand, c :: rest)

/-- The decimal that is kept of a numeral, its sign apart. A digit before the point that
is left over counts as a place, and one after the point not at all. -/
def held (n : Numeral) : Decimal :=
  let fraction := n.fraction.getD []
  let whole := takeDigits 0 n.whole
  let all := takeDigits whole.1 fraction
  ⟨all.1, (n.exponent.map Exponent.toInt).getD 0 + whole.2.length
    - (fraction.length - all.2.length : Int)⟩

/-- The exponent of the greatest power of ten that a double comes near to. -/
def maxPower : Nat := 308

/-- A double times a power of ten, unless that is too great. -/
def scaleUp? (x : Binary64) (k : Nat) : Option Binary64 :=
  if k ≤ maxPower then
    let y := x.mul (.ofPowerOfTen k)
    if y.isFinite then some y else none
  else if x.isZero then some x
  else none

/-- A double divided by a power of ten, which is split where it is too great itself. -/
def scaleDown (x : Binary64) (k : Nat) : Binary64 :=
  if k ≤ maxPower then x.div (.ofPowerOfTen k)
  else if x.isZero then x
  else scaleDown (x.div (.ofPowerOfTen maxPower)) (k - maxPower)
termination_by k
decreasing_by
  simp only [maxPower] at *
  omega

/-- The finite double that a numeral is read as. -/
def finite? (n : Numeral) : Option Binary64 :=
  let d := held n
  let x := Binary64.ofQuotient false d.digits 1
  let scaled := if 0 ≤ d.scale then scaleUp? x d.scale.toNat else some (scaleDown x d.scale.natAbs)
  scaled.map fun y => { y with negative := n.negative }

/-- The value of a number. -/
def ofNumeral? (n : Numeral) : Option Json :=
  match integer? n with
  | some i => some (.integer i)
  | none => (finite? n).map .float

end DataLisp.Json
