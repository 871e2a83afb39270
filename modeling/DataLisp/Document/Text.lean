/-
Documents as text.

Not every document can be written. Ids have to be identifiers, keys identifiers or
unsigned integers, and floats finite. Everything that is against this is an offence,
the offences of a document are listed in the order in which its text would reach them,
and the first one is the reason why there is no text.

The text itself is laid out as tokens with blanks between them: an opening parenthesis
and the id, each entry on a line of its own, anonymous ones first, and the closing
parenthesis. A group without entries and an array stay on one line. Layout never fails
and does not ask for offences; that it is only used where there is none is the business
of `Document.write`.
-/
import DataLisp.Binary64.Notation
import DataLisp.Document.Group
import DataLisp.Text.Piece
import DataLisp.Token.Basic

set_option autoImplicit false

namespace DataLisp

/-! ## Offences -/

/-- Why a document has no text. -/
inductive Offence where
  | invalidId (name : String)
  | invalidKey (name : String)
  | nonFinite (x : Binary64)
deriving DecidableEq, Repr

/-- The wording of an offence. -/
def Offence.message : Offence → String
  | invalidId name => "group id '" ++ name ++ "' is not a valid identifier"
  | invalidKey name => "key '" ++ name ++ "' is not a valid identifier"
  | nonFinite x => "float " ++ Notation.message.text x ++ " has no text form"

/-- Whether a text can be written as the id of a group. -/
def isWritableId (id : String) : Bool :=
  Token.isIdentifier id.toList

/-- Whether a text is a nonempty run of digits. -/
def isDigits (key : List Char) : Bool :=
  !key.isEmpty && key.all Char.isDigit

/-- Whether a text can be written as a key. -/
def isWritableKey (key : String) : Bool :=
  isDigits key.toList || Token.isIdentifier key.toList

mutual

/-- The offences in a value. -/
def Value.offences : Value → List Offence
  | .float x => if x.isFinite then [] else [.nonFinite x]
  | .group g => g.offences
  | .array items => Items.offences items
  | .null | .string _ | .integer _ | .bool _ => []

/-- The offences in a group: its id, then its anonymous entries, then its named ones. -/
def Group.offences : Group → List Offence
  | ⟨id, named, anonymous⟩ =>
    (if isWritableId id then [] else [.invalidId id]) ++
      (Values.offences anonymous ++ Named.offences named)

/-- The offences in named entries, the key before the value. -/
def Named.offences : List (String × Value) → List Offence
  | [] => []
  | (key, v) :: rest =>
    (if isWritableKey key then [] else [.invalidKey key]) ++ (v.offences ++ Named.offences rest)

/-- The offences in anonymous entries. -/
def Values.offences : List Value → List Offence
  | [] => []
  | v :: rest => v.offences ++ Values.offences rest

/-- The offences in the items of an array. -/
def Items.offences : List Item → List Offence
  | [] => []
  | ⟨_, v⟩ :: rest => v.offences ++ Items.offences rest

end

/-! ## Layout -/

/-- The token that writes a key. -/
def Token.ofKey (key : String) : Token :=
  if isDigits key.toList then .integer ⟨none, key.toList, none, none⟩ else .identifier key.toList

mutual

/-- A value, at a depth that matters to the lines inside it. -/
def Value.pieces (indent depth : Nat) : Value → List (Piece Token)
  | .null => [.token .null]
  | .string s => [.token (.string s.toList)]
  | .integer i => [.token (.integer (Numeral.ofInt64 i))]
  | .float x => [.token (.float (Notation.document.numeral x))]
  | .bool b => [.token (.bool b)]
  | .group g => g.pieces indent depth
  | .array items =>
    .token .openBracket ::
      (Piece.separated [.token .comma, .space] (Items.pieces indent depth items) ++
        [.token .closeBracket])

/-- A group: each entry on its own line, and the closing parenthesis on the last. -/
def Group.pieces (indent depth : Nat) : Group → List (Piece Token)
  | ⟨id, named, anonymous⟩ =>
    let lines := Values.pieces indent (depth + 1) anonymous ++ Named.pieces indent (depth + 1) named
    .token .openParen :: .token (.identifier id.toList) ::
      (lines.flatMap (Piece.newline indent (depth + 1) :: ·) ++
        ((if lines.isEmpty then [] else [Piece.newline indent depth]) ++ [.token .closeParen]))

/-- Each named entry, its key in front. -/
def Named.pieces (indent depth : Nat) : List (String × Value) → List (List (Piece Token))
  | [] => []
  | (key, v) :: rest =>
    (.token .colon :: .token (.ofKey key) :: .space :: v.pieces indent depth) ::
      Named.pieces indent depth rest

/-- Each anonymous entry. -/
def Values.pieces (indent depth : Nat) : List Value → List (List (Piece Token))
  | [] => []
  | v :: rest => v.pieces indent depth :: Values.pieces indent depth rest

/-- Each item of an array, without its key. -/
def Items.pieces (indent depth : Nat) : List Item → List (List (Piece Token))
  | [] => []
  | ⟨_, v⟩ :: rest => v.pieces indent depth :: Items.pieces indent depth rest

end

namespace Document

/-- The offences in a document. -/
def offences (doc : Document) : List Offence :=
  doc.flatMap Group.offences

/-- The pieces of a document: each top group ends with a line break. -/
def pieces (indent : Nat) (doc : Document) : List (Piece Token) :=
  doc.flatMap fun g => g.pieces indent 0 ++ [.blank ['\n']]

/-- The laid out text of a document. -/
def layout (indent : Nat) (doc : Document) : String :=
  String.ofList (Piece.spellAll Token.spell (doc.pieces indent))

/-- The text of a document, or the first offence in it. -/
def write (indent : Nat) (doc : Document) : Except Offence String :=
  match doc.offences with
  | [] => .ok (doc.layout indent)
  | first :: _ => .error first

/-- The spaces per level where nothing else is asked for. -/
def defaultIndent : Nat := 2

end Document

end DataLisp
