/-
From text to tokens.

The text is cut into lexemes. A lexeme takes its first character and as many more as
it says, so every step gets on, whatever it finds: a token, a blank, a comment, or a
fault that is reported and skipped. The position of a lexeme is that of its first
character and follows from the text before it alone.
-/
import DataLisp.Token.Basic
import DataLisp.Token.Escape

set_option autoImplicit false

namespace DataLisp.Token

/-! ## Strings -/

/-- The inside of a string: its bytes, whether it is closed, how many characters it takes
with the closing quote, and the faults in its escapes. -/
structure Body where
  bytes : List UInt8
  closed : Bool
  length : Nat
  problems : Diagnostics
deriving Repr

/-- Reads the inside of a string up to its quote. A line break or the end of the text
leaves it open. A fault in an escape is reported right after the backslash. -/
def scanBody (quote : Char) (p : Position) : List Char → Body
  | [] => ⟨[], false, 0, []⟩
  | c :: rest =>
    if c = '\n' then ⟨[], false, 0, []⟩
    else if c = quote then ⟨[], true, 1, []⟩
    else if c = '\\' then
      let e := Escape.scan rest
      let inside := p.next c
      let body := scanBody quote (inside.advance (rest.take e.length)) (rest.drop e.length)
      ⟨e.bytes ++ body.bytes, body.closed, 1 + e.length + body.length,
        (e.problem.map (·.report inside)).toList ++ body.problems⟩
    else
      let body := scanBody quote (p.next c) rest
      ⟨Text.Utf8.encodeChar c ++ body.bytes, body.closed, 1 + body.length, body.problems⟩
termination_by cs => cs.length

/-! ## Lexemes -/

/-- A piece of text: the token it is, if it is one, how many characters it takes after the
first, and what is wrong with it. -/
structure Lexeme where
  token : Option Token
  length : Nat
  problems : Diagnostics
deriving Repr

namespace Lexeme

/-- A lexeme that is a token and nothing is wrong with. -/
def plain (token : Token) (length : Nat) : Lexeme := ⟨some token, length, []⟩

/-- A lexeme that is skipped. -/
def skip (length : Nat) : Lexeme := ⟨none, length, []⟩

/-- A lexeme that is skipped because of a fault at its start. -/
def fault (p : Position) (length : Nat) (problem : Problem) : Lexeme :=
  ⟨none, length, [problem.report p]⟩

/-- A string that starts at `p`. Its bytes should be UTF-8; where they are not, invalid
sequences are replaced and the string is kept. -/
def string (p : Position) (quote : Char) (rest : List Char) : Lexeme :=
  let body := scanBody quote (p.next quote) rest
  let unterminated := if body.closed then [] else [Problem.unterminatedString.report p]
  match Text.Utf8.decode? body.bytes with
  | some content => ⟨some (.string content), body.length, body.problems ++ unterminated⟩
  | none =>
    ⟨some (.string (Text.Utf8.decodeLossy body.bytes)), body.length,
      body.problems ++ unterminated ++ [Problem.invalidUtf8.report p]⟩

/-- A number that starts at `p`: the longest numeral there, if it is an integer or a
float. -/
def number (p : Position) (cs : List Char) : Lexeme :=
  let n := (Numeral.scan cs).1
  let length := n.chars.length - 1
  if n.isInteger then plain (.integer n) length
  else if n.isFloat then plain (.float n) length
  else fault p length (.invalidNumber n.chars)

/-- Whether a number can start with a character. -/
def isNumberStart (c : Char) : Bool :=
  c.isDigit || c = '+' || c = '-' || c = '.'

/-- The lexeme that starts at `p` with `c`. -/
def scan (p : Position) (c : Char) (rest : List Char) : Lexeme :=
  if Text.isBlank c then skip 0
  else if c = ';' then skip (rest.takeWhile (· ≠ '\n')).length
  else if c = '(' then plain .openParen 0
  else if c = ')' then plain .closeParen 0
  else if c = '[' then plain .openBracket 0
  else if c = ']' then plain .closeBracket 0
  else if c = ',' then plain .comma 0
  else if c = ':' then plain .colon 0
  else if c = '$' then
    if rest.head? = some '(' then plain .openExpression 1 else fault p 0 .bareDollar
  else if c = '"' || c = '\'' then string p c rest
  else if isNumberStart c then number p (c :: rest)
  else if isWordStart c then
    let more := rest.takeWhile isWordPart
    plain (.ofWord (c :: more)) more.length
  else fault p 0 (.invalidCharacter c)

end Lexeme

/-! ## The whole text -/

/-- The tokens of a text, the position at which it ends, and what is wrong with its
spelling, in order. -/
structure Scan where
  tokens : List PlacedToken
  stop : Position
  problems : Diagnostics
deriving Repr

/-- The tokens of a text that starts at a position. -/
def scanFrom (p : Position) : List Char → Scan
  | [] => ⟨[], p, []⟩
  | c :: rest =>
    let lexeme := Lexeme.scan p c rest
    let next := (p.next c).advance (rest.take lexeme.length)
    let more := scanFrom next (rest.drop lexeme.length)
    ⟨(lexeme.token.map (⟨·, p⟩)).toList ++ more.tokens, more.stop,
      lexeme.problems ++ more.problems⟩
termination_by cs => cs.length

/-- The tokens of a text. -/
def scan (text : String) : Scan :=
  scanFrom .start text.toList

end DataLisp.Token
