/-
Tokens of JSON text.

A string token is kept as its parts: characters, and the sixteen-bit units of `\u`
escapes. Whether the units pair up to characters is asked only where the string is
needed, and so is the value of a number.
-/
import DataLisp.Numeral
import DataLisp.Text.Hex

set_option autoImplicit false

namespace DataLisp.Json

/-- A part of a string: a character, or a unit given by its number. -/
inductive Part where
  | char (c : Char)
  | unit (code : Nat)
deriving DecidableEq, Repr, Inhabited

/-- A token. -/
inductive Token where
  | openBrace
  | closeBrace
  | openBracket
  | closeBracket
  | comma
  | colon
  | null
  | bool (b : Bool)
  | number (n : Numeral)
  | string (parts : List Part)
deriving DecidableEq, Repr, Inhabited

/-! ## Spelling -/

namespace Part

/-- The part that writes a character: the controls that have no escape of their own are
written by number, every other character by itself. -/
def ofChar (c : Char) : Part :=
  if c.toNat < 0x20 ∧ c ≠ '\x08' ∧ c ≠ '\x0c' ∧ c ≠ '\n' ∧ c ≠ '\r' ∧ c ≠ '\t' then
    unit c.toNat
  else
    char c

/-- The text of a part inside quotes. -/
def spell : Part → List Char
  | char '"' => ['\\', '"']
  | char '\\' => ['\\', '\\']
  | char '\x08' => ['\\', 'b']
  | char '\x0c' => ['\\', 'f']
  | char '\n' => ['\\', 'n']
  | char '\r' => ['\\', 'r']
  | char '\t' => ['\\', 't']
  | char c => [c]
  | unit code => '\\' :: 'u' :: Text.paddedHexDigits 4 code

end Part

namespace Token

/-- The string token that writes a text. -/
def ofString (s : String) : Token :=
  string (s.toList.map Part.ofChar)

/-- The text of a token. -/
def spell : Token → List Char
  | openBrace => ['\x7b']
  | closeBrace => ['\x7d']
  | openBracket => ['[']
  | closeBracket => [']']
  | comma => [',']
  | colon => [':']
  | null => ['n', 'u', 'l', 'l']
  | bool true => ['t', 'r', 'u', 'e']
  | bool false => ['f', 'a', 'l', 's', 'e']
  | number n => n.chars
  | string parts => '"' :: parts.flatMap Part.spell ++ ['"']

end Token

/-! ## Scanning -/

/-- Whether a numeral is one of JSON: no plus in front, no needless zero, and digits
wherever there is a point or an exponent. -/
def isNumber (n : Numeral) : Bool :=
  n.sign ≠ some .plus && !n.whole.isEmpty && (n.whole.length = 1 || n.whole.head? ≠ some '0') &&
    (n.fraction.all fun digits => !digits.isEmpty) &&
    (n.exponent.all fun e => !e.digits.isEmpty)

/-- The part that an escape writes, and how many characters after the backslash it takes. -/
def scanEscape : List Char → Option (Part × Nat)
  | '"' :: _ => some (.char '"', 1)
  | '\\' :: _ => some (.char '\\', 1)
  | '/' :: _ => some (.char '/', 1)
  | 'b' :: _ => some (.char '\x08', 1)
  | 'f' :: _ => some (.char '\x0c', 1)
  | 'n' :: _ => some (.char '\n', 1)
  | 'r' :: _ => some (.char '\r', 1)
  | 't' :: _ => some (.char '\t', 1)
  | 'u' :: rest =>
    let digits := (rest.take 4).takeWhile Text.isHexDigit
    if digits.length = 4 then some (.unit (Text.ofHexDigits digits), 5) else none
  | _ => none

/-- The parts of a string up to its closing quote, and how many characters they take with
the quote. -/
def scanString : List Char → Option (List Part × Nat)
  | [] => none
  | c :: rest =>
    if c = '"' then some ([], 1)
    else if c = '\\' then do
      let (part, length) ← scanEscape rest
      let (parts, more) ← scanString (rest.drop length)
      return (part :: parts, 1 + length + more)
    else if c.toNat < 0x20 then none
    else do
      let (parts, more) ← scanString rest
      return (.char c :: parts, 1 + more)
termination_by cs => cs.length

/-- Whether a character may stand between tokens. -/
def isBlank (c : Char) : Bool :=
  c = ' ' || c = '\t' || c = '\n' || c = '\r'

/-- The token that a word is. -/
def ofWord? (word : List Char) : Option Token :=
  if word = ['n', 'u', 'l', 'l'] then some .null
  else if word = ['t', 'r', 'u', 'e'] then some (.bool true)
  else if word = ['f', 'a', 'l', 's', 'e'] then some (.bool false)
  else none

/-- The token that starts with `c`, none for a blank, and how many characters it takes
after the first. -/
def scanToken (c : Char) (rest : List Char) : Option (Option Token × Nat) :=
  if isBlank c then some (none, 0)
  else if c = '\x7b' then some (some .openBrace, 0)
  else if c = '\x7d' then some (some .closeBrace, 0)
  else if c = '[' then some (some .openBracket, 0)
  else if c = ']' then some (some .closeBracket, 0)
  else if c = ',' then some (some .comma, 0)
  else if c = ':' then some (some .colon, 0)
  else if c = '"' then (scanString rest).map fun (parts, length) => (some (.string parts), length)
  else if c.isDigit || c = '-' then
    let n := (Numeral.scan (c :: rest)).1
    if isNumber n then some (some (.number n), n.chars.length - 1) else none
  else
    let more := rest.takeWhile Char.isAlpha
    (ofWord? (c :: more)).map fun t => (some t, more.length)

/-- The tokens of a text, if it is made of tokens and blanks. -/
def scan : List Char → Option (List Token)
  | [] => some []
  | c :: rest => do
    let (token, length) ← scanToken c rest
    return token.toList ++ (← scan (rest.drop length))
termination_by cs => cs.length

end DataLisp.Json
