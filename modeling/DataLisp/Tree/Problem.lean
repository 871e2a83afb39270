/-
What can be wrong with the structure of a text.
-/
import DataLisp.Token.Basic

set_option autoImplicit false

namespace DataLisp.Tree

/-- How many groups, arrays and expressions may lie inside each other below a top-level
group. -/
def maxDepth : Nat := 256

/-- What a place in the text calls for. -/
inductive Expected where
  | identifier
  | key
  | value
deriving DecidableEq, Repr

/-- What messages call it. -/
def Expected.name : Expected → String
  | identifier => "identifier"
  | key => "key"
  | value => "value"

/-- A fault in the structure of a text. -/
inductive Problem where
  | missing (wanted : Token) (got : Option Token)
  | expected (what : Expected) (got : Option Token)
  | outside (got : Token)
  | signedKey (n : Numeral)
  | outOfRange (n : Numeral)
  | keyedItem
  | tooDeep
deriving DecidableEq, Repr

namespace Problem

/-- The wording of a fault. -/
def message : Problem → String
  | missing wanted got =>
    "expected '" ++ wanted.describe ++ "' but got '" ++ Token.describeNext got ++ "'"
  | expected what got => "expected " ++ what.name ++ " but got '" ++ Token.describeNext got ++ "'"
  | outside got => "unexpected '" ++ got.describe ++ "' outside of a group"
  | signedKey n => "key '" ++ n.text ++ "' must be an unsigned integer"
  | outOfRange n => "integer '" ++ n.text ++ "' out of range"
  | keyedItem => "array elements cannot have keys"
  | tooDeep => "nesting deeper than " ++ toString maxDepth ++ " levels"

/-- The error that reports a fault at a position. -/
def report (problem : Problem) (p : Position) : Diagnostic :=
  .error p problem.message

end Problem

end DataLisp.Tree
