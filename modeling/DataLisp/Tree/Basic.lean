/-
Parsed text.

A tree is what the text says before any expression is evaluated. Groups and
expressions are both forms: a name and entries in parentheses. An entry is a value with
an optional key, at the position of its first token. Where a value could not be read,
an invalid one stands in its place, so a text with faults has a tree as well.
-/
import DataLisp.Binary64.Rounding
import DataLisp.Diagnostic

set_option autoImplicit false

namespace DataLisp

mutual

/-- A parsed value. -/
inductive Tree where
  | group (form : Form)
  | array (items : List Tree)
  | expression (form : Form)
  | integer (i : Int64)
  | float (x : Binary64)
  | string (s : String)
  | bool (b : Bool)
  | null
  /-- Stands for a value that could not be read. -/
  | invalid

/-- A name and entries, at the position of the opening token. -/
structure Form where
  name : String
  entries : List Entry
  position : Position

/-- A value with an optional key, at the position of its first token. -/
structure Entry where
  key : Option String
  value : Tree
  position : Position

end

instance : Inhabited Tree := ⟨.null⟩
instance : Inhabited Form := ⟨⟨"", [], default⟩⟩
instance : Inhabited Entry := ⟨⟨none, .null, default⟩⟩

/-- Whether a value is an expression. -/
def Tree.isExpression : Tree → Bool
  | .expression _ => true
  | _ => false

end DataLisp
