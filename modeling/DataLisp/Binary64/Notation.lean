/-
How doubles are written.

All number formats of the library write the shortest digits that read back and differ
in a few decisions only: which values are written positionally, whether a whole
number keeps a `.0`, whether a positive exponent shows its sign, and where a tie goes.
A `Notation` holds these decisions, and the three formats are three values of it.
-/
import DataLisp.Binary64.Shortest

set_option autoImplicit false

namespace DataLisp

/-- The decisions of a number format. A value is positional if it lies in
`[10 ^ (low - 1), 10 ^ high)`; an absent bound does not limit. -/
structure Notation where
  low : Option Int
  high : Option Int
  /-- Whether a positional whole number is followed by `.0`. -/
  pointed : Bool
  /-- Whether a positive exponent is written with its sign. -/
  signed : Bool
  tie : Tie
deriving DecidableEq, Repr

namespace Notation

/-- Document text: positional from a ten-thousandth up to below ten to the sixteenth,
always recognisable as a float, `1e16` and `1.5e-5` outside. -/
def document : Notation := ⟨some (-3), some 16, true, false, .away⟩

/-- Messages: always positional, and a whole number looks like an integer. -/
def message : Notation := ⟨none, none, false, false, .away⟩

/-- JSON text: positional from a hundred-thousandth up to below ten to the sixteenth,
`1e+16` and `1.5e-6` outside. -/
def json : Notation := ⟨some (-4), some 16, true, true, .even⟩

/-- Whether a value whose decade is `k` (so that it lies in `[10 ^ (k - 1), 10 ^ k)`) is
written positionally. -/
def isPositional (f : Notation) (k : Int) : Bool :=
  (f.low.all fun low => low ≤ k) && (f.high.all fun high => k ≤ high)

/-- A list of digits without the zeros at its end. -/
def dropTrailingZeros (digits : List Char) : List Char :=
  (digits.reverse.dropWhile (· = '0')).reverse

/-- The parts of a positional numeral: the point stands after `k` of the digits, zeros
filling the gap on either side. -/
def positional (f : Notation) (digits : List Char) (k : Int) : List Char × Option (List Char) :=
  let whole := digits.take k.toNat ++ List.replicate (k.toNat - digits.length) '0'
  let fraction := List.replicate (-k).toNat '0' ++ digits.drop k.toNat
  (if whole.isEmpty then ['0'] else whole,
    if !fraction.isEmpty then some fraction
    else if f.pointed then some ['0']
    else none)

/-- The exponent `k` as it is written. -/
def exponent (f : Notation) (k : Int) : Exponent where
  mark := 'e'
  sign := if k < 0 then some .minus else if f.signed then some .plus else none
  digits := Nat.toDigits 10 k.natAbs

/-- The numeral of a double. The value of an infinity or a NaN is taken from its bits as
if it were finite; `text` has words for these. -/
def numeral (f : Notation) (x : Binary64) : Numeral :=
  let d := x.shortest f.tie
  let written := Nat.toDigits 10 d.digits
  let k : Int := written.length + d.scale
  let digits := dropTrailingZeros written
  let sign : Option Sign := if x.negative then some .minus else none
  if x.isZero then
    ⟨sign, ['0'], if f.pointed then some ['0'] else none, none⟩
  else if f.isPositional k then
    let (whole, fraction) := f.positional digits k
    ⟨sign, whole, fraction, none⟩
  else
    ⟨sign, digits.take 1, if digits.length ≤ 1 then none else some (digits.drop 1),
      some (f.exponent (k - 1))⟩

/-- The text of a double, with words for what is not finite. -/
def text (f : Notation) (x : Binary64) : String :=
  if x.isNaN then "NaN"
  else if x.isFinite then (f.numeral x).text
  else if x.negative then "-inf"
  else "inf"

end Notation

end DataLisp
