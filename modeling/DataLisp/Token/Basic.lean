/-
Tokens of the notation.

A document text is a sequence of tokens with blanks and comments between them. Each
token has a spelling, which the writer uses, and a short description, which messages
use. Numbers are kept as numerals: a key may be written `007`, and a message about a
number quotes it as it stands.
-/
import DataLisp.Diagnostic
import DataLisp.Numeral
import DataLisp.Text.Blank
import DataLisp.Text.Hex

set_option autoImplicit false

namespace DataLisp

/-- A token. -/
inductive Token where
  | openParen
  | closeParen
  | openBracket
  | closeBracket
  /-- The opening `$(` of an expression. -/
  | openExpression
  | comma
  | colon
  | identifier (name : List Char)
  | string (content : List Char)
  | integer (n : Numeral)
  | float (n : Numeral)
  | bool (b : Bool)
  | null
deriving DecidableEq, Repr, Inhabited

namespace Token

/-- What messages call a token: punctuation and keywords by themselves, the rest by
class. -/
def describe : Token → String
  | openParen => "("
  | closeParen => ")"
  | openBracket => "["
  | closeBracket => "]"
  | openExpression => "$("
  | comma => ","
  | colon => ":"
  | identifier _ => "identifier"
  | string _ => "string"
  | integer _ => "integer"
  | float _ => "float"
  | bool true => "true"
  | bool false => "false"
  | null => "null"

/-- What messages call the next token, or the end of the text. -/
def describeNext : Option Token → String
  | some t => t.describe
  | none => "end of input"

/-! ## Words -/

/-- Whether a word can start with a character. Words are ASCII. -/
def isWordStart (c : Char) : Bool :=
  c.isAlpha || c = '_'

/-- Whether a word can go on with a character. -/
def isWordPart (c : Char) : Bool :=
  c.isAlphanum || c = '_'

/-- The token that a word is: a keyword, or an identifier. -/
def ofWord (word : List Char) : Token :=
  if word = ['t', 'r', 'u', 'e'] then bool true
  else if word = ['f', 'a', 'l', 's', 'e'] then bool false
  else if word = ['n', 'u', 'l', 'l'] then null
  else identifier word

/-- Whether a text is a word and no keyword. -/
def isIdentifier (word : List Char) : Bool :=
  match word with
  | [] => false
  | c :: rest => isWordStart c && rest.all isWordPart && ofWord word = identifier word

/-! ## Spelling -/

/-- One character inside a string as the writer spells it: the short escapes where there
is one, a number for the other controls, and every other character as it is. -/
def spellChar (c : Char) : List Char :=
  match c with
  | '\\' => ['\\', '\\']
  | '"' => ['\\', '"']
  | '\n' => ['\\', 'n']
  | '\t' => ['\\', 't']
  | '\r' => ['\\', 'r']
  | '\x07' => ['\\', 'a']
  | '\x08' => ['\\', 'b']
  | '\x0b' => ['\\', 'v']
  | '\x0c' => ['\\', 'f']
  | c =>
    if Text.isControl c then
      '\\' :: 'u' :: (Text.paddedHexDigits 4 c.toNat).map Char.toUpper
    else [c]

/-- The text of a token. -/
def spell : Token → List Char
  | openParen => ['(']
  | closeParen => [')']
  | openBracket => ['[']
  | closeBracket => [']']
  | openExpression => ['$', '(']
  | comma => [',']
  | colon => [':']
  | identifier name => name
  | string content => '"' :: content.flatMap spellChar ++ ['"']
  | integer n => n.chars
  | float n => n.chars
  | bool true => ['t', 'r', 'u', 'e']
  | bool false => ['f', 'a', 'l', 's', 'e']
  | null => ['n', 'u', 'l', 'l']

end Token

/-- A token and the position of its first character. -/
structure PlacedToken where
  token : Token
  position : Position
deriving DecidableEq, Repr, Inhabited

end DataLisp
