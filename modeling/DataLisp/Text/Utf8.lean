/-
UTF-8, both ways.

A character is one to four bytes: a lead byte and up to three continuation bytes. The
lead byte fixes how many follow and, for some leads, a narrower range for the first of
them, which excludes overlong forms, surrogates and numbers past the last code point.
Decoding is a machine that takes one byte at a time and holds the character under way.
A byte that cannot continue it ends the attempt: what was read so far is one invalid
sequence, and the byte starts anew. So each maximal invalid sequence gives exactly one
`none`, which the strict reading refuses and the lenient one replaces by U+FFFD.
-/
set_option autoImplicit false

namespace DataLisp.Text.Utf8

/-- The bytes of a character. -/
def encodeChar (c : Char) : List UInt8 :=
  let n := c.toNat
  if n < 0x80 then [UInt8.ofNat n]
  else if n < 0x800 then [UInt8.ofNat (0xC0 + n / 64), UInt8.ofNat (0x80 + n % 64)]
  else if n < 0x10000 then
    [UInt8.ofNat (0xE0 + n / 4096), UInt8.ofNat (0x80 + n / 64 % 64), UInt8.ofNat (0x80 + n % 64)]
  else
    [UInt8.ofNat (0xF0 + n / 262144), UInt8.ofNat (0x80 + n / 4096 % 64),
      UInt8.ofNat (0x80 + n / 64 % 64), UInt8.ofNat (0x80 + n % 64)]

/-- The bytes of a text. -/
def encode (cs : List Char) : List UInt8 :=
  cs.flatMap encodeChar

/-- A character under way: its bits so far, how many bytes it still needs, and the bounds
of the next one. -/
structure Sequence where
  bits : Nat
  due : Nat
  low : Nat
  high : Nat
deriving DecidableEq, Repr

/-- What one byte does: characters that are complete (`none` for an invalid sequence),
and the character under way afterwards. -/
abbrev Step := List (Option Char) × Option Sequence

/-- The first byte of a character. -/
def first (b : Nat) : Step :=
  if b < 0x80 then ([some (Char.ofNat b)], none)
  else if b < 0xC2 then ([none], none)
  else if b < 0xE0 then ([], some ⟨b - 0xC0, 1, 0x80, 0xBF⟩)
  else if b = 0xE0 then ([], some ⟨0, 2, 0xA0, 0xBF⟩)
  else if b = 0xED then ([], some ⟨0x0D, 2, 0x80, 0x9F⟩)
  else if b < 0xF0 then ([], some ⟨b - 0xE0, 2, 0x80, 0xBF⟩)
  else if b = 0xF0 then ([], some ⟨0, 3, 0x90, 0xBF⟩)
  else if b < 0xF4 then ([], some ⟨b - 0xF0, 3, 0x80, 0xBF⟩)
  else if b = 0xF4 then ([], some ⟨4, 3, 0x80, 0x8F⟩)
  else ([none], none)

/-- One byte, with the character under way before it. -/
def step : Option Sequence → Nat → Step
  | none, b => first b
  | some s, b =>
    if s.low ≤ b ∧ b ≤ s.high then
      let bits := s.bits * 64 + (b - 0x80)
      if s.due ≤ 1 then ([some (Char.ofNat bits)], none)
      else ([], some ⟨bits, s.due - 1, 0x80, 0xBF⟩)
    else
      let (characters, s) := first b
      (none :: characters, s)

/-- Decodes bytes, with the character under way before them. -/
def decodeFrom : Option Sequence → List UInt8 → List (Option Char)
  | none, [] => []
  | some _, [] => [none]
  | s, b :: rest => (step s b.toNat).1 ++ decodeFrom (step s b.toNat).2 rest

/-- The characters of a sequence of bytes, `none` for each maximal invalid sequence. -/
def decode (bytes : List UInt8) : List (Option Char) :=
  decodeFrom none bytes

/-- The text of a sequence of bytes, if they are valid. -/
def decode? (bytes : List UInt8) : Option (List Char) :=
  (decode bytes).mapM id

/-- The text of a sequence of bytes, U+FFFD for each maximal invalid sequence. -/
def decodeLossy (bytes : List UInt8) : List Char :=
  (decode bytes).map (·.getD (Char.ofNat 0xFFFD))

end DataLisp.Text.Utf8
