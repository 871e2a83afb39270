/-
Outlines of trees.

An outline shows a parsed text line by line, two spaces deeper for each level. It shows
names, keys, kinds and literal values, and leaves out positions only.
-/
import DataLisp.Binary64.Notation
import DataLisp.Text.Quoted
import DataLisp.Tree.Basic

set_option autoImplicit false

namespace DataLisp

/-- A line of an outline: how deep it is indented, and its text. -/
structure Outline.Line where
  depth : Nat
  text : String
deriving DecidableEq, Repr

/-- What stands in front of a value with a key. -/
def Outline.label : Option String → String
  | some key => ":" ++ key ++ " "
  | none => ""

mutual

/-- The lines of a value. -/
def Tree.lines (depth : Nat) (label : String) : Tree → List Outline.Line
  | .group form => ⟨depth, label ++ "Group"⟩ :: form.lines (depth + 1)
  | .array items => ⟨depth, label ++ "Array"⟩ :: Trees.lines (depth + 1) items
  | .expression ⟨name, entries, _⟩ =>
    ⟨depth, label ++ "Expression " ++ name⟩ :: Entries.lines (depth + 1) entries
  | .integer i => [⟨depth, label ++ "Integer " ++ (Numeral.ofInt64 i).text⟩]
  | .float x => [⟨depth, label ++ "Float " ++ Notation.document.text x⟩]
  | .string s => [⟨depth, label ++ "String " ++ Text.quote s⟩]
  | .bool b => [⟨depth, label ++ "Bool " ++ (if b then "true" else "false")⟩]
  | .null => [⟨depth, label ++ "Null"⟩]
  | .invalid => [⟨depth, label ++ "Invalid"⟩]

/-- The lines of a group: its name, and its entries one level deeper. -/
def Form.lines (depth : Nat) : Form → List Outline.Line
  | ⟨name, entries, _⟩ => ⟨depth, "Statement " ++ name⟩ :: Entries.lines (depth + 1) entries

/-- The lines of entries. -/
def Entries.lines (depth : Nat) : List Entry → List Outline.Line
  | [] => []
  | ⟨key, value, _⟩ :: rest =>
    value.lines depth (Outline.label key) ++ Entries.lines depth rest

/-- The lines of array items. -/
def Trees.lines (depth : Nat) : List Tree → List Outline.Line
  | [] => []
  | item :: rest => item.lines depth "" ++ Trees.lines depth rest

end

namespace Outline

/-- A line as it is printed. -/
def Line.print (line : Line) : String :=
  String.ofList (List.replicate (2 * line.depth) ' ') ++ line.text ++ "\n"

/-- The outline of a text. -/
def print (forms : List Form) : String :=
  String.join ((forms.flatMap (Form.lines 0)).map Line.print)

end Outline

end DataLisp
