/-
The log.

An event is a message with named fields at one of five levels. The log of an operation
is the list of its events; a threshold cuts it to the levels that a user asked for.
-/
import DataLisp.Diagnostic
import DataLisp.Noted

set_option autoImplicit false

namespace DataLisp

/-- The levels of the log, from the most detailed to the most urgent. -/
inductive Severity where
  | trace
  | debug
  | info
  | warn
  | error
deriving DecidableEq, Repr, Inhabited

namespace Severity

/-- The name of a level in the log. -/
def name : Severity → String
  | trace => "TRACE"
  | debug => "DEBUG"
  | info => "INFO"
  | warn => "WARN"
  | error => "ERROR"

/-- The place of a level in the order of urgency. -/
def rank : Severity → Nat
  | trace => 0
  | debug => 1
  | info => 2
  | warn => 3
  | error => 4

/-- The level at which a diagnostic is logged. -/
def ofLevel : Level → Severity
  | .debug => debug
  | .info => info
  | .warning => warn
  | .error => error

end Severity

/-- One entry of the log. -/
structure Event where
  severity : Severity
  message : String
  fields : List (String × String)
deriving DecidableEq, Repr, Inhabited

namespace Event

/-- An event as one line: level, message, and the fields in order. -/
def text (e : Event) : String :=
  e.fields.foldl (fun line field => line ++ " " ++ field.1 ++ "=" ++ field.2)
    (e.severity.name ++ " " ++ e.message)

/-- The event that logs a diagnostic. -/
def ofDiagnostic (d : Diagnostic) : Event where
  severity := .ofLevel d.level
  message := d.message
  fields := [("line", toString d.position.line), ("column", toString d.position.column)]

/-- The events at or above a level. -/
def atLeast (threshold : Severity) (events : List Event) : List Event :=
  events.filter fun e => threshold.rank ≤ e.severity.rank

end Event

/-- A result with the log of how it came about. -/
abbrev Logged := Noted Event

namespace Logged

/-- Writes an event to the log. -/
def log (severity : Severity) (message : String) (fields : List (String × String)) :
    Logged Unit :=
  Noted.note ⟨severity, message, fields⟩

/-- Writes diagnostics to the log. -/
def emit (ds : Diagnostics) : Logged Unit :=
  Noted.noteAll (ds.map Event.ofDiagnostic)

end Logged

end DataLisp
