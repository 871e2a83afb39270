/-
What can be wrong with the tokens of a text.
-/
import DataLisp.Diagnostic
import DataLisp.Text.Hex

set_option autoImplicit false

namespace DataLisp.Token

/-- A fault in the spelling of a token. -/
inductive Problem where
  | bareDollar
  | invalidCharacter (c : Char)
  | invalidNumber (text : List Char)
  | unterminatedString
  | unfinishedEscape
  | shortEscape (width : Nat)
  | invalidScalar (code : Nat)
  | invalidUtf8
deriving DecidableEq, Repr

namespace Problem

/-- The wording of a fault. -/
def message : Problem → String
  | bareDollar => "expected '(' after '$'"
  | invalidCharacter c => "invalid character '" ++ String.singleton c ++ "'"
  | invalidNumber text => "invalid number '" ++ String.ofList text ++ "'"
  | unterminatedString => "unterminated string"
  | unfinishedEscape => "unfinished escape sequence"
  | shortEscape width => "escape sequence needs " ++ toString width ++ " hex digits"
  | invalidScalar code => "invalid Unicode scalar value 0x" ++ String.ofList (Text.hexDigits code)
  | invalidUtf8 => "string is not valid UTF-8"

/-- The error that reports a fault at a position. -/
def report (problem : Problem) (p : Position) : Diagnostic :=
  .error p problem.message

end Problem

end DataLisp.Token
