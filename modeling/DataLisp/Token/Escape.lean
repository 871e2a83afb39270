/-
Escapes in strings.

After a backslash, a line break joins two lines, seven letters stand for controls,
`x` takes two hexadecimal digits for one byte, `u` four and `U` eight for one
character, and any other character stands for itself. An escape contributes bytes,
not characters, so that a run of `\x` escapes may spell one character byte by byte.
-/
import DataLisp.Text.Utf8
import DataLisp.Token.Problem

set_option autoImplicit false

namespace DataLisp.Token

/-- What an escape gives: its bytes, its fault if it has one, and how many characters
after the backslash it takes. -/
structure Escape where
  bytes : List UInt8
  problem : Option Problem
  length : Nat
deriving DecidableEq, Repr

namespace Escape

/-- The character that an escaped letter stands for. -/
def mnemonic : Char → Char
  | 'n' => '\n'
  | 't' => '\t'
  | 'r' => '\r'
  | 'a' => '\x07'
  | 'b' => '\x08'
  | 'f' => '\x0c'
  | 'v' => '\x0b'
  | c => c

/-- An escape of `width` hexadecimal digits after a letter. With fewer digits it gives
nothing, but the digits there are taken. -/
def numeric (width : Nat) (rest : List Char) (give : Nat → List UInt8 × Option Problem) :
    Escape :=
  let digits := (rest.take width).takeWhile Text.isHexDigit
  if digits.length = width then
    let (bytes, problem) := give (Text.ofHexDigits digits)
    ⟨bytes, problem, 1 + width⟩
  else
    ⟨[], some (.shortEscape width), 1 + digits.length⟩

/-- One byte given by its number. -/
def byte (code : Nat) : List UInt8 × Option Problem :=
  ([UInt8.ofNat code], none)

/-- One character given by its number, unless it is no character. -/
def scalar (code : Nat) : List UInt8 × Option Problem :=
  if code.isValidChar then (Text.Utf8.encodeChar (Char.ofNat code), none)
  else ([], some (.invalidScalar code))

/-- The escape after a backslash. -/
def scan : List Char → Escape
  | [] => ⟨[], some .unfinishedEscape, 0⟩
  | '\n' :: _ => ⟨[], none, 1⟩
  | 'x' :: rest => numeric 2 rest byte
  | 'u' :: rest => numeric 4 rest scalar
  | 'U' :: rest => numeric 8 rest scalar
  | c :: _ => ⟨Text.Utf8.encodeChar (mnemonic c), none, 1⟩

end Escape

end DataLisp.Token
