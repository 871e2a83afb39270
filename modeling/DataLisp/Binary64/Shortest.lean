/-
The shortest decimal that reads back as a given double.

For one digit, two digits, and so on up to seventeen, the absolute value lies between
two neighbours on the grid of decimals with that many digits. A neighbour is good if
reading it gives the double again. The first grid with a good neighbour decides: the
good one is taken, of two the nearer, and an exact tie goes as the number format
says. Seventeen digits always suffice; should the search end without a result, the
exact decimal expansion is returned, so that reading back holds by construction.
-/
import DataLisp.Binary64.Rounding

set_option autoImplicit false

namespace DataLisp

/-- The nonnegative decimal `digits * 10 ^ scale`. -/
structure Decimal where
  digits : Nat
  scale : Int
deriving DecidableEq, Repr, Inhabited

/-- Where an exact half between two neighbours goes. -/
inductive Tie where
  | away
  | even
deriving DecidableEq, Repr, Inhabited

namespace Binary64

/-- The least `k` with `num / den < 10 ^ k`, for positive arguments. The difference of
the digit counts is that `k` or one less. -/
def decade (num den : Nat) : Int :=
  let k : Int := (decimalLength num : Int) - decimalLength den
  if num * tenTo (-k).toNat < den * tenTo k.toNat then k else k + 1

/-- Whether a decimal, given the sign of `x`, reads back as `x`. -/
def readsBack (x : Binary64) (d : Decimal) : Bool :=
  ofDecimal x.negative d.digits d.scale = x

/-- The better of the two neighbours with unit `10 ^ scale`, if one reads back.
`num / den` is the absolute value of `x` in that unit. -/
def nearestOnGrid (tie : Tie) (x : Binary64) (scale : Int) (num den : Nat) : Option Decimal :=
  let low := num / den
  let twice := 2 * (num % den)
  let below : Decimal := ⟨low, scale⟩
  let above : Decimal := ⟨low + 1, scale⟩
  match readsBack x below, readsBack x above with
  | false, false => none
  | true, false => some below
  | false, true => some above
  | true, true =>
    if twice < den then some below
    else if den < twice then some above
    else match tie with
      | .away => some above
      | .even => if low % 2 = 0 then some below else some above

/-- The better neighbour with `count` digits, if one reads back. -/
def withDigits (tie : Tie) (x : Binary64) (count : Nat) : Option Decimal :=
  let scale : Int := decade x.numerator x.denominator - count
  nearestOnGrid tie x scale (x.numerator * tenTo (-scale).toNat)
    (x.denominator * tenTo scale.toNat)

/-- The absolute value itself as a decimal: dividing by `2 ^ k` is multiplying by
`5 ^ k` and moving the point by `k` places. -/
def exactDecimal (x : Binary64) : Decimal :=
  ⟨x.numerator * Nat.pow 5 (-x.exponent).toNat, min x.exponent 0⟩

/-- The shortest decimal that reads back as the double, up to its sign, and of those
the nearest. -/
def shortest (tie : Tie) (x : Binary64) : Decimal :=
  if x.isZero then ⟨0, 0⟩
  else ((List.range 17).findSome? fun n => withDigits tie x (n + 1)).getD x.exactDecimal

end Binary64

end DataLisp
