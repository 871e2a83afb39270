/-
The two programs.

A program reads one file, converts its text and writes one file. The conversion is a
function of the options and the text; where the files are kept is left open, so the same
program runs on a disk and on a directory in memory. Nothing is written unless the
conversion has succeeded.
-/
import DataLisp.Command.Arguments
import DataLisp.Document.Text
import DataLisp.Host.JsonText
import DataLisp.Document.Reading
import DataLisp.Tree.Outline

set_option autoImplicit false

namespace DataLisp.Command

/-! ## Failures -/

/-- Why a program fails. -/
inductive Failure where
  | unreadable (path : String)
  | malformed (path : String) (diagnostics : Diagnostics)
  | undecodable (path : String) (e : ExchangeError)
  | unbuildable (path : String) (diagnostics : Diagnostics)
  | unencodable (e : ExchangeError)
  | inexpressible (e : Offence)
  | unwritable (path : String)
deriving DecidableEq, Repr

namespace Failure

/-- The wording of a failure, with its cause. -/
def message : Failure → String
  | unreadable path => "failed to read " ++ path
  | malformed path ds => "failed to parse " ++ path ++ ": " ++ ds.summary
  | undecodable path e => "failed to decode " ++ path ++ ": " ++ e.message
  | unbuildable path ds => "failed to build " ++ path ++ ": " ++ ds.summary
  | unencodable e => "failed to encode JSON: " ++ e.message
  | inexpressible e => "failed to generate DataLisp text: " ++ e.message
  | unwritable path => "failed to write " ++ path

/-- The exit code of a failure: one for each stage. -/
def exitCode : Failure → Int
  | unreadable _ => -2
  | malformed _ _ | undecodable _ _ => -3
  | unbuildable _ _ | unencodable _ | inexpressible _ => -4
  | unwritable _ => -5

end Failure

/-- The exit code of a command line that asks for nothing sensible. -/
def usageExitCode : Int := -1

/-! ## Conversions -/

/-- What a conversion makes of a text: what it prints, and either the text to write with
the number of groups in it, or a failure. -/
structure Conversion where
  printed : String
  result : Except Failure (String × Nat)

/-- From document text to JSON. -/
def convertToJson (o : Options) (text : String) : Logged Conversion := do
  let parsed ← Parsed.logged text
  Logged.emit parsed.diagnostics
  if parsed.diagnostics.hasErrors then
    return ⟨"", .error (.malformed o.input parsed.diagnostics)⟩
  let printed := if o.dump then Outline.print parsed.forms else ""
  let (document, diagnostics) ← Document.ofFormsLogged .standard parsed.forms
  Logged.emit diagnostics
  if diagnostics.hasErrors then
    return ⟨printed, .error (.unbuildable o.input diagnostics)⟩
  match ← document.toJsonText (if o.compact then .compact else .pretty) with
  | .error e => return ⟨printed, .error (.unencodable e)⟩
  | .ok json => return ⟨printed, .ok (json ++ "\n", document.length)⟩

/-- From JSON to document text. -/
def convertToText (o : Options) (text : String) : Logged Conversion := do
  match ← Document.ofJsonText text with
  | .error e => return ⟨"", .error (.undecodable o.input e)⟩
  | .ok document =>
    match document.write o.indent with
    | .error e => return ⟨"", .error (.inexpressible e)⟩
    | .ok written => return ⟨"", .ok (written, document.length)⟩

/-- The conversion of a program. -/
def convert : Program → Options → String → Logged Conversion
  | .toJson => convertToJson
  | .toText => convertToText

/-! ## Runs -/

/-- A place for files. -/
structure Storage (m : Type → Type) where
  /-- The text of a file, if there is one and it is valid. -/
  read : String → m (Option String)
  /-- Replaces a file, and says whether that could be done. -/
  write : String → String → m Bool

/-- How a program ended: its failure if it failed, its log, and what it printed. -/
structure Outcome where
  failure : Option Failure
  log : List Event
  printed : String

namespace Outcome

/-- The exit code. -/
def exitCode (o : Outcome) : Int :=
  (o.failure.map Failure.exitCode).getD 0

/-- An end in failure, the failure being the last line of the log. -/
def failed (failure : Failure) (log : List Event) (printed : String) : Outcome :=
  ⟨some failure, log ++ [⟨.error, failure.message, []⟩], printed⟩

/-- The same outcome with its log cut to what was asked for. -/
def filtered (o : Outcome) (threshold : Severity) : Outcome :=
  { o with log := Event.atLeast threshold o.log }

end Outcome

/-- The line of the log that tells of a success. -/
def convertedEvent (o : Options) (groups : Nat) : Event where
  severity := .info
  message := "converted"
  fields := [("input", o.input), ("output", o.output), ("groups", toString groups)]

/-- Runs a program with the log complete. -/
def runLogged {m : Type → Type} [Monad m] (storage : Storage m) (program : Program)
    (o : Options) : m Outcome := do
  let reading : Event := ⟨.debug, "reading input", [("path", o.input)]⟩
  match ← storage.read o.input with
  | none => return .failed (.unreadable o.input) [reading] ""
  | some text =>
    let conversion := convert program o text
    let log := reading :: conversion.notes
    let printed := conversion.value.printed
    match conversion.value.result with
    | .error failure => return .failed failure log printed
    | .ok (written, groups) =>
      if ← storage.write o.output written then
        return ⟨none, log ++ [convertedEvent o groups], printed⟩
      else
        return .failed (.unwritable o.output) log printed

/-- Runs a program. -/
def run {m : Type → Type} [Monad m] (storage : Storage m) (program : Program) (o : Options) :
    m Outcome := do
  return (← runLogged storage program o).filtered o.threshold

end DataLisp.Command
