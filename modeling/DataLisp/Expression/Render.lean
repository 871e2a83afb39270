/-
Values as plain text, for messages.

Strings stand without quotes, floats in the format of messages, arrays in brackets, and
groups in parentheses after their id, anonymous entries first.
-/
import DataLisp.Binary64.Notation
import DataLisp.Document.Group

set_option autoImplicit false

namespace DataLisp

mutual

/-- A value as plain text. -/
def Value.render : Value → String
  | .null => "null"
  | .string s => s
  | .integer i => (Numeral.ofInt64 i).text
  | .float x => Notation.message.text x
  | .bool b => if b then "true" else "false"
  | .array items => "[" ++ String.intercalate ", " (Items.render items) ++ "]"
  | .group g => g.render

/-- A group as plain text. -/
def Group.render : Group → String
  | ⟨id, named, anonymous⟩ =>
    let parts := Values.render anonymous ++ Named.render named
    "(" ++ id ++ (if parts.isEmpty then "" else " " ++ String.intercalate ", " parts) ++ ")"

/-- Each named entry as plain text, with its key. -/
def Named.render : List (String × Value) → List String
  | [] => []
  | (key, v) :: rest => (":" ++ key ++ " " ++ v.render) :: Named.render rest

/-- Each value as plain text. -/
def Values.render : List Value → List String
  | [] => []
  | v :: rest => v.render :: Values.render rest

/-- Each item of an array as plain text, without its key. -/
def Items.render : List Item → List String
  | [] => []
  | ⟨_, v⟩ :: rest => v.render :: Items.render rest

end

end DataLisp
