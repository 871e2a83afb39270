/-
Numerals: numbers as they are written.

A numeral keeps the parts of a written number apart (sign, whole part, fraction,
exponent), so that what is said about number text is said about a structure and
not about a list of characters. Every layer that reads or writes numbers shares it:
the notation reads a numeral and asks whether it is an integer or a float, the
number formats lay a value out as a numeral, and JSON accepts the numerals of its
own stricter grammar.

Nothing here rounds. A numeral denotes the rational `± digits * 10 ^ exponent`, and
`decimal` returns exactly that.
-/
set_option autoImplicit false

namespace DataLisp

/-- The sign that stands in front of a number or of an exponent. -/
inductive Sign where
  | plus
  | minus
deriving DecidableEq, Repr, Inhabited

namespace Sign

/-- The character that writes the sign. -/
def char : Sign → Char
  | plus => '+'
  | minus => '-'

/-- The sign that a character writes, if it writes one. -/
def ofChar? : Char → Option Sign
  | '+' => some plus
  | '-' => some minus
  | _ => none

/-- A leading sign, and what follows it. -/
def scan : List Char → Option Sign × List Char
  | [] => (none, [])
  | c :: rest =>
    match ofChar? c with
    | some sign => (some sign, rest)
    | none => (none, c :: rest)

/-- The sign as written; an absent sign writes nothing. -/
def chars (sign : Option Sign) : List Char :=
  (sign.map Sign.char).toList

theorem char_of_ofChar? {c : Char} {sign : Sign} (h : ofChar? c = some sign) :
    sign.char = c := by
  unfold ofChar? at h
  split at h <;> cases h <;> rfl

/-- A sign and what follows it are the text again. -/
theorem chars_scan (cs : List Char) : chars (scan cs).1 ++ (scan cs).2 = cs := by
  match cs with
  | [] => rfl
  | c :: rest =>
    cases h : ofChar? c with
    | none => simp [scan, h, chars]
    | some sign => simp [scan, h, chars, char_of_ofChar? h]

end Sign

/-- The exponent of a numeral: the letter that introduces it, a sign, and digits.
While text is scanned the digits may be missing; see `Numeral.isFloat`. -/
structure Exponent where
  mark : Char
  sign : Option Sign
  digits : List Char
deriving DecidableEq, Repr, Inhabited

namespace Exponent

/-- The letters that introduce an exponent. -/
def isMark (c : Char) : Bool :=
  c = 'e' || c = 'E'

/-- The exponent as written. -/
def chars (e : Exponent) : List Char :=
  e.mark :: (Sign.chars e.sign ++ e.digits)

/-- The exponent as a number; no digits count as zero. -/
def toInt (e : Exponent) : Int :=
  let size : Nat := Nat.ofDigitChars 10 e.digits 0
  if e.sign = some .minus then -(size : Int) else (size : Int)

/-- The longest exponent at the start of the text, and what follows it. -/
def scan : List Char → Option Exponent × List Char
  | [] => (none, [])
  | c :: rest =>
    if isMark c then
      let (sign, rest) := Sign.scan rest
      (some ⟨c, sign, rest.takeWhile Char.isDigit⟩, rest.dropWhile Char.isDigit)
    else
      (none, c :: rest)

end Exponent

/-- A number as it is written. `fraction` is what follows the point, if there is a
point at all. -/
structure Numeral where
  sign : Option Sign
  whole : List Char
  fraction : Option (List Char)
  exponent : Option Exponent
deriving DecidableEq, Repr, Inhabited

namespace Numeral

/-! ## Reading and writing -/

/-- A point and the digits after it, and what follows them. -/
def scanFraction : List Char → Option (List Char) × List Char
  | '.' :: rest => (some (rest.takeWhile Char.isDigit), rest.dropWhile Char.isDigit)
  | cs => (none, cs)

/-- The longest numeral at the start of the text, and what follows it. Every part may
be missing, so this never fails: whether the parts make up a number is asked
afterwards. -/
def scan (cs : List Char) : Numeral × List Char :=
  let (sign, cs) := Sign.scan cs
  let whole := cs.takeWhile Char.isDigit
  let (fraction, cs) := scanFraction (cs.dropWhile Char.isDigit)
  let (exponent, cs) := Exponent.scan cs
  (⟨sign, whole, fraction, exponent⟩, cs)

/-- The point and the digits after it, as written. -/
def fractionChars : Option (List Char) → List Char
  | some digits => '.' :: digits
  | none => []

/-- The exponent, as written. -/
def exponentChars : Option Exponent → List Char
  | some e => e.chars
  | none => []

/-- The numeral as written. -/
def chars (n : Numeral) : List Char :=
  Sign.chars n.sign ++ n.whole ++ fractionChars n.fraction ++ exponentChars n.exponent

/-- The numeral as text. -/
def text (n : Numeral) : String :=
  String.ofList n.chars

/-! ## Classes -/

/-- The digits before and after the point, in order. -/
def digits (n : Numeral) : List Char :=
  n.whole ++ n.fraction.getD []

/-- Digits with at most a sign in front of them. -/
def isInteger (n : Numeral) : Bool :=
  !n.whole.isEmpty && n.fraction.isNone && n.exponent.isNone

/-- At least one digit, and a point or an exponent; an exponent has digits. -/
def isFloat (n : Numeral) : Bool :=
  !n.digits.isEmpty &&
    match n.exponent with
    | some e => !e.digits.isEmpty
    | none => n.fraction.isSome

/-- An integer without a sign. Such numerals may serve as keys. -/
def isUnsigned (n : Numeral) : Bool :=
  n.isInteger && n.sign.isNone

/-! ## Value -/

/-- Whether the numeral is written with a minus. -/
def negative (n : Numeral) : Bool :=
  n.sign = some .minus

/-- The digits as one natural number, the point ignored. -/
def mantissa (n : Numeral) : Nat :=
  Nat.ofDigitChars 10 n.digits 0

/-- The power of ten that goes with `mantissa`: the written exponent, less one for
each digit after the point. -/
def scale (n : Numeral) : Int :=
  (n.exponent.map Exponent.toInt).getD 0 - (n.fraction.getD []).length

/-- The value of an integer numeral. -/
def toInt (n : Numeral) : Int :=
  if n.negative then -(n.mantissa : Int) else n.mantissa

/-- The value of an integer numeral, if 64 bits hold it. -/
def toInt64? (n : Numeral) : Option Int64 :=
  if Int64.minValue.toInt ≤ n.toInt ∧ n.toInt ≤ Int64.maxValue.toInt then
    some (Int64.ofInt n.toInt)
  else
    none

/-- The numeral that writes an integer: a minus where it is negative, and no leading
zeros. -/
def ofInt (z : Int) : Numeral where
  sign := if z < 0 then some .minus else none
  whole := Nat.toDigits 10 z.natAbs
  fraction := none
  exponent := none

/-- The numeral of a 64-bit integer. -/
def ofInt64 (i : Int64) : Numeral :=
  ofInt i.toInt

/-! ## Scanning and writing -/

theorem fractionChars_scan (cs : List Char) :
    fractionChars (scanFraction cs).1 ++ (scanFraction cs).2 = cs := by
  unfold scanFraction
  split
  · simp [fractionChars, List.takeWhile_append_dropWhile]
  · rfl

theorem exponentChars_scan (cs : List Char) :
    exponentChars (Exponent.scan cs).1 ++ (Exponent.scan cs).2 = cs := by
  match cs with
  | [] => rfl
  | c :: rest =>
    simp only [Exponent.scan]
    split
    · simp only [exponentChars, Exponent.chars, List.cons_append, List.append_assoc,
        List.takeWhile_append_dropWhile, Sign.chars_scan]
    · rfl

/-- A numeral and what follows it are the text again: scanning loses nothing. -/
theorem chars_scan (cs : List Char) : (scan cs).1.chars ++ (scan cs).2 = cs := by
  simp only [scan, chars, List.append_assoc, exponentChars_scan, fractionChars_scan,
    List.takeWhile_append_dropWhile, Sign.chars_scan]

end Numeral

end DataLisp
