/-
Messages about a text.

A report is a level and a message; a diagnostic is a report at a position of the text.
Problems are collected in order and never stop the work that finds them. A line of `0`
marks a message without a position.
-/
set_option autoImplicit false

namespace DataLisp

/-- A line and a column, both counted from one. Columns count characters. -/
structure Position where
  line : Nat
  column : Nat
deriving DecidableEq, Repr, Inhabited

namespace Position

/-- The position of the first character of a text. -/
def start : Position := ⟨1, 1⟩

/-- The position after a character. -/
def next (p : Position) (c : Char) : Position :=
  if c = '\n' then ⟨p.line + 1, 1⟩ else ⟨p.line, p.column + 1⟩

/-- The position after some text. -/
def advance (p : Position) (cs : List Char) : Position :=
  cs.foldl next p

theorem advance_append (p : Position) (cs ds : List Char) :
    p.advance (cs ++ ds) = (p.advance cs).advance ds :=
  List.foldl_append

/-- The position as text, line before column. -/
def text (p : Position) : String :=
  toString p.line ++ ":" ++ toString p.column

/-- Order of positions: by line, then by column. -/
def le (p q : Position) : Bool :=
  p.line < q.line || (p.line == q.line && p.column ≤ q.column)

end Position

/-- How serious a message is. -/
inductive Level where
  | debug
  | info
  | warning
  | error
deriving DecidableEq, Repr, Inhabited

namespace Level

/-- The name of a level in diagnostics. -/
def name : Level → String
  | debug => "debug"
  | info => "info"
  | warning => "warning"
  | error => "error"

/-- The place of a level in the order of seriousness. -/
def rank : Level → Nat
  | debug => 0
  | info => 1
  | warning => 2
  | error => 3

end Level

/-- A message and its level. -/
structure Report where
  level : Level
  message : String
deriving DecidableEq, Repr, Inhabited

/-- A report at a position. -/
structure Diagnostic where
  position : Position
  level : Level
  message : String
deriving DecidableEq, Repr, Inhabited

namespace Report

/-- An error. -/
def error (message : String) : Report := ⟨.error, message⟩

/-- The report at a position. -/
def place (p : Position) (r : Report) : Diagnostic := ⟨p, r.level, r.message⟩

end Report

namespace Diagnostic

/-- An error at a position. -/
def error (p : Position) (message : String) : Diagnostic := ⟨p, .error, message⟩

/-- A warning at a position. -/
def warning (p : Position) (message : String) : Diagnostic := ⟨p, .warning, message⟩

/-- Whether a diagnostic is an error. -/
def isError (d : Diagnostic) : Bool := d.level = .error

/-- A diagnostic as one line, without the position where there is none. -/
def text (d : Diagnostic) : String :=
  let body := d.level.name ++ ": " ++ d.message
  if d.position.line = 0 then body else d.position.text ++ ": " ++ body

/-- Order by level, then by position. -/
def le (d e : Diagnostic) : Bool :=
  d.level.rank < e.level.rank || (d.level.rank == e.level.rank && d.position.le e.position)

end Diagnostic

/-- Diagnostics in the order in which they were found. -/
abbrev Diagnostics := List Diagnostic

namespace Diagnostics

/-- The number of diagnostics at a level. -/
def count (ds : Diagnostics) (level : Level) : Nat :=
  (ds.filter fun d => d.level = level).length

/-- Whether there is an error. -/
def hasErrors (ds : Diagnostics) : Bool :=
  ds.any Diagnostic.isError

/-- The first error. -/
def firstError? (ds : Diagnostics) : Option Diagnostic :=
  ds.find? Diagnostic.isError

/-- One line that sums the diagnostics up: how many errors, and the first of them. -/
def summary (ds : Diagnostics) : String :=
  match firstError? ds with
  | some first => toString (count ds .error) ++ " error(s), first at " ++ first.text
  | none => toString ds.length ++ " diagnostic(s), no errors"

/-- The diagnostics in order of level and position, equal ones in their given order. -/
def sorted (ds : Diagnostics) : Diagnostics :=
  ds.mergeSort Diagnostic.le

end Diagnostics

end DataLisp
