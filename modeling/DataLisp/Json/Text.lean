/-
JSON values as text.

There are two layouts of the same tokens: compact, without any blanks, and pretty, with
every item and member on a line of its own, two spaces deeper than what holds it. An
empty array or object stays closed up in both. A float that is not finite has no number
in JSON and is written as null.
-/
import DataLisp.Binary64.Notation
import DataLisp.Json.Basic
import DataLisp.Json.Token
import DataLisp.Text.Piece

set_option autoImplicit false

namespace DataLisp.Json

/-- A layout of JSON text. -/
inductive Layout where
  | compact
  | pretty
deriving DecidableEq, Repr, Inhabited

namespace Layout

/-- The spaces per level. -/
def indent : Nat := 2

/-- What stands before each item and before the closing bracket, at a depth. -/
def lineBreak (layout : Layout) (depth : Nat) : List (Piece Token) :=
  match layout with
  | compact => []
  | pretty => [Piece.newline indent depth]

/-- What stands between a name and its value. -/
def colon (layout : Layout) : List (Piece Token) :=
  match layout with
  | compact => [.token .colon]
  | pretty => [.token .colon, .space]

/-- Items or members inside brackets, `depth` being that of the brackets. -/
def enclose (layout : Layout) (depth : Nat) (opening closing : Token)
    (items : List (List (Piece Token))) : List (Piece Token) :=
  if items.isEmpty then [.token opening, .token closing]
  else
    .token opening :: (layout.lineBreak (depth + 1) ++
      (Piece.separated (.token .comma :: layout.lineBreak (depth + 1)) items ++
        (layout.lineBreak depth ++ [.token closing])))

end Layout

/-- The token of a float. -/
def floatToken (x : Binary64) : Token :=
  if x.isFinite then .number (Notation.json.numeral x) else .null

mutual

/-- The pieces of a value at a depth. -/
def pieces (layout : Layout) (depth : Nat) : Json → List (Piece Token)
  | .null => [.token .null]
  | .bool b => [.token (.bool b)]
  | .integer i => [.token (.number (Numeral.ofInt64 i))]
  | .float x => [.token (floatToken x)]
  | .string s => [.token (.ofString s)]
  | .array items =>
    layout.enclose depth .openBracket .closeBracket (itemPieces layout (depth + 1) items)
  | .object members =>
    layout.enclose depth .openBrace .closeBrace (memberPieces layout (depth + 1) members)

/-- The pieces of each item of an array. -/
def itemPieces (layout : Layout) (depth : Nat) : List Json → List (List (Piece Token))
  | [] => []
  | v :: rest => pieces layout depth v :: itemPieces layout depth rest

/-- The pieces of each member of an object. -/
def memberPieces (layout : Layout) (depth : Nat) :
    List (String × Json) → List (List (Piece Token))
  | [] => []
  | (name, v) :: rest =>
    (.token (.ofString name) :: (layout.colon ++ pieces layout depth v)) ::
      memberPieces layout depth rest

end

/-- The text of a value. -/
def text (layout : Layout) (v : Json) : String :=
  String.ofList (Piece.spellAll Token.spell (v.pieces layout 0))

end DataLisp.Json
