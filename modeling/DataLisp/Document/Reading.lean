/-
Reading documents.

A text is parsed and then built. Any error stops the reading, with all diagnostics of
the stage that found it; warnings and messages go to the log. The log is part of the
result.
-/
import DataLisp.Expression.Standard
import DataLisp.Tree.Evaluation
import DataLisp.Tree.Grammar

set_option autoImplicit false

namespace DataLisp

/-- Why a text is no document. -/
inductive Rejection where
  | malformed (diagnostics : Diagnostics)
  | unbuildable (diagnostics : Diagnostics)
deriving DecidableEq, Repr

namespace Rejection

/-- The diagnostics of the stage that failed. -/
def diagnostics : Rejection → Diagnostics
  | malformed ds => ds
  | unbuildable ds => ds

/-- The error in one line. -/
def message : Rejection → String
  | malformed ds => "syntax error: " ++ ds.summary
  | unbuildable ds => "build error: " ++ ds.summary

end Rejection

/-- Parses a text, with a line in the log. -/
def Parsed.logged (text : String) : Logged Parsed := do
  let parsed := Parsed.ofText text
  Logged.log .debug "parsed" [("statements", toString parsed.forms.length),
    ("errors", toString (parsed.diagnostics.count .error))]
  return parsed

namespace Document

/-- Builds parsed forms; the events go to the log and the diagnostics into the result. -/
def ofFormsLogged (registry : Registry) (forms : List Form) : Logged (Document × Diagnostics) :=
  let built := ofForms registry forms
  ⟨(built.value, built.diagnostics), built.events⟩

/-- Reads a document from a text, with the given expressions. -/
def readWith (registry : Registry) (text : String) : Logged (Except Rejection Document) := do
  let parsed ← Parsed.logged text
  if parsed.diagnostics.hasErrors then
    return .error (.malformed parsed.diagnostics)
  Logged.emit parsed.diagnostics
  let (document, diagnostics) ← ofFormsLogged registry parsed.forms
  if diagnostics.hasErrors then
    return .error (.unbuildable diagnostics)
  Logged.emit diagnostics
  return .ok document

/-- Reads a document with the standard expressions. -/
def read (text : String) : Except Rejection Document :=
  (readWith .standard text).value

end Document

end DataLisp
