/-
Command lines.

There are two programs, each with a few options and up to two paths. Arguments are
taken from left to right, options and paths in any order, and the first thing that is
wrong ends the reading; so does a request for help or for the version where it stands.
A double hyphen makes everything after it a path. What can only be known at the end,
that a path is missing or that two options contradict each other, is checked at the end.
-/
import DataLisp.Event
import DataLisp.Numeral

set_option autoImplicit false

namespace DataLisp.Command

/-- The programs. -/
inductive Program where
  /-- From document text to JSON. -/
  | toJson
  /-- From JSON to document text. -/
  | toText
deriving DecidableEq, Repr, Inhabited

namespace Program

/-- The name under which a program is called. -/
def name : Program → String
  | toJson => "datalisp2json"
  | toText => "json2datalisp"

/-- The program of a name. -/
def ofName? (text : String) : Option Program :=
  [toJson, toText].find? fun program => program.name = text

/-- Where a program writes if no second path is given. -/
def defaultOutput : Program → String
  | toJson => "output.json"
  | toText => "output.dl"

end Program

/-! ## Options -/

/-- The options of the programs. -/
inductive Flag where
  | compact
  | dump
  | indent
  | verbose
  | quiet
  | help
  | version
deriving DecidableEq, Repr, Inhabited

namespace Flag

/-- The long name of an option, without its hyphens. -/
def long : Flag → String
  | compact => "compact"
  | dump => "dump"
  | indent => "indent"
  | verbose => "verbose"
  | quiet => "quiet"
  | help => "help"
  | version => "version"

/-- The letter of an option. -/
def short? : Flag → Option Char
  | verbose => some 'v'
  | quiet => some 'q'
  | help => some 'h'
  | version => some 'V'
  | compact | dump | indent => none

/-- Whether an option is followed by a value. -/
def takesValue (flag : Flag) : Bool :=
  flag = indent

end Flag

/-- The options that a program knows. -/
def Program.flags : Program → List Flag
  | .toJson => [.compact, .dump, .verbose, .quiet, .help, .version]
  | .toText => [.indent, .verbose, .quiet, .help, .version]

/-- What a user asks for. -/
structure Options where
  input : String
  output : String
  compact : Bool
  dump : Bool
  indent : Nat
  quiet : Bool
  verbose : Nat
deriving DecidableEq, Repr

/-- The least urgent level that the log shows. -/
def Options.threshold (o : Options) : Severity :=
  if o.quiet then .error
  else match o.verbose with
    | 0 => .info
    | 1 => .debug
    | _ => .trace

/-- What is wrong with a command line. -/
inductive UsageError where
  | unknownOption (text : String)
  | repeatedOption (flag : Flag)
  | unexpectedValue (flag : Flag)
  | missingValue (flag : Flag)
  | invalidValue (flag : Flag) (text : String)
  | emptyPath
  | unexpectedPath (text : String)
  | missingInput
  | contradiction (first second : Flag)
deriving DecidableEq, Repr

/-- The wording of a fault. -/
def UsageError.message : UsageError → String
  | unknownOption text => "unknown option '" ++ text ++ "'"
  | repeatedOption flag => "option '--" ++ flag.long ++ "' is given twice"
  | unexpectedValue flag => "option '--" ++ flag.long ++ "' takes no value"
  | missingValue flag => "option '--" ++ flag.long ++ "' needs a value"
  | invalidValue flag text => "'" ++ text ++ "' is no value of option '--" ++ flag.long ++ "'"
  | emptyPath => "a path is empty"
  | unexpectedPath text => "there is no place for the path '" ++ text ++ "'"
  | missingInput => "the input path is missing"
  | contradiction first second =>
    "options '--" ++ first.long ++ "' and '--" ++ second.long ++ "' contradict each other"

/-- Why the reading of a command line ends before its end. -/
inductive Stop where
  /-- Help or the version is asked for. -/
  | information (flag : Flag)
  | fault (e : UsageError)
deriving DecidableEq, Repr

/-! ## Reading -/

/-- What has been read of a command line. -/
structure Progress where
  paths : List String
  compact : Bool
  dump : Bool
  quiet : Bool
  verbose : Nat
  indent : Option Nat
  /-- The option whose value comes next. -/
  awaiting : Option Flag
  /-- Whether only paths can follow. -/
  pathsOnly : Bool
deriving DecidableEq, Repr

namespace Progress

/-- Nothing read yet. -/
def start : Progress := ⟨[], false, false, false, 0, none, none, false⟩

/-- Whether an option has been given that may be given once only. -/
def hasGiven (p : Progress) : Flag → Bool
  | .compact => p.compact
  | .dump => p.dump
  | .quiet => p.quiet
  | .indent => p.indent.isSome
  | .verbose | .help | .version => false

/-- An option without a value. -/
def setFlag (p : Progress) (flag : Flag) : Except Stop Progress :=
  if p.hasGiven flag then throw (.fault (.repeatedOption flag))
  else match flag with
    | .compact => return { p with compact := true }
    | .dump => return { p with dump := true }
    | .quiet => return { p with quiet := true }
    | .verbose => return { p with verbose := p.verbose + 1 }
    | .indent => return { p with awaiting := some .indent }
    | .help | .version => throw (.information flag)

/-- The greatest number that an option can have for a value. -/
def maxNumber : Nat := 0xFFFFFFFFFFFFFFFF

/-- A number without a sign or with a plus. -/
def number? (text : String) : Option Nat :=
  let (n, rest) := Numeral.scan text.toList
  if rest.isEmpty && n.isInteger && !n.negative && n.mantissa ≤ maxNumber then some n.mantissa
  else none

/-- The value of an option. -/
def setValue (p : Progress) (flag : Flag) (text : String) : Except Stop Progress :=
  if p.hasGiven flag then throw (.fault (.repeatedOption flag))
  else match number? text with
    | some n => return { p with indent := some n, awaiting := none }
    | none => throw (.fault (.invalidValue flag text))

/-- A path. -/
def addPath (p : Progress) (path : String) : Except Stop Progress :=
  if path.isEmpty then throw (.fault .emptyPath)
  else if p.paths.length < 2 then return { p with paths := p.paths ++ [path] }
  else throw (.fault (.unexpectedPath path))

/-- A long option, given what follows its hyphens. -/
def takeLong (program : Program) (p : Progress) (body : List Char) : Except Stop Progress :=
  let name := String.ofList (body.takeWhile (· ≠ '='))
  match program.flags.find? fun flag => flag.long = name with
  | none => throw (.fault (.unknownOption ("--" ++ name)))
  | some flag =>
    match body.dropWhile (· ≠ '=') with
    | [] => p.setFlag flag
    | _ :: value =>
      if flag.takesValue then p.setValue flag (String.ofList value)
      else throw (.fault (.unexpectedValue flag))

/-- A letter of a cluster of short options. -/
def takeLetter (program : Program) (p : Progress) (c : Char) : Except Stop Progress :=
  match program.flags.find? fun flag => flag.short? = some c with
  | some flag => p.setFlag flag
  | none => throw (.fault (.unknownOption (String.ofList ['-', c])))

/-- One argument. A value is awaited of an option right after it, and an argument that
looks like an option is no value. -/
def take (program : Program) (p : Progress) (arg : String) : Except Stop Progress :=
  match p.awaiting, arg.toList with
  | some flag, '-' :: _ => throw (.fault (.missingValue flag))
  | some flag, _ => p.setValue flag arg
  | none, cs =>
    if p.pathsOnly then p.addPath arg
    else match cs with
      | ['-', '-'] => return { p with pathsOnly := true }
      | '-' :: '-' :: body => takeLong program p body
      | '-' :: c :: letters => (c :: letters).foldlM (takeLetter program) p
      | _ => p.addPath arg

/-- What the whole command line asks for. -/
def finish (program : Program) (p : Progress) : Except Stop Options :=
  match p.awaiting, p.paths with
  | some flag, _ => throw (.fault (.missingValue flag))
  | none, [] => throw (.fault .missingInput)
  | none, input :: rest =>
    if p.quiet && p.verbose ≠ 0 then throw (.fault (.contradiction .quiet .verbose))
    else return {
      input := input
      output := rest.head?.getD program.defaultOutput
      compact := p.compact
      dump := p.dump
      indent := p.indent.getD 2
      quiet := p.quiet
      verbose := p.verbose }

end Progress

/-- Reads a command line. -/
def Options.ofArguments (program : Program) (args : List String) : Except Stop Options := do
  (← args.foldlM (Progress.take program) .start).finish program

end DataLisp.Command
