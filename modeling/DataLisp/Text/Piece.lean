/-
Text in pieces.

A writer lays its output out as a list of tokens and blanks. What the text says is then
the list of its tokens, and the blanks between them are layout: two layouts of one
document differ in their blanks only.
-/
set_option autoImplicit false

namespace DataLisp

/-- A piece of text: a token, or blanks. -/
inductive Piece (τ : Type) where
  | token (t : τ)
  | blank (cs : List Char)
deriving DecidableEq, Repr

namespace Piece

variable {τ : Type}

/-- The token of a piece. -/
def token? : Piece τ → Option τ
  | token t => some t
  | blank _ => none

/-- The characters of a piece, given the spelling of tokens. -/
def spell (spelling : τ → List Char) : Piece τ → List Char
  | token t => spelling t
  | blank cs => cs

/-- The characters of several pieces. -/
def spellAll (spelling : τ → List Char) (pieces : List (Piece τ)) : List Char :=
  pieces.flatMap (spell spelling)

/-- A single space. -/
def space : Piece τ := blank [' ']

/-- A line break, and the indentation of the next line. -/
def newline (indent depth : Nat) : Piece τ :=
  blank ('\n' :: List.replicate (indent * depth) ' ')

/-- Lists of pieces with a separator between them. -/
def separated (separator : List (Piece τ)) : List (List (Piece τ)) → List (Piece τ)
  | [] => []
  | [last] => last
  | first :: rest => first ++ separator ++ separated separator rest

end Piece

end DataLisp
