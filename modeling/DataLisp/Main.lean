/-
The command line.

The first argument names one of the two programs, the others are its arguments. Files
are those of the disk, the log goes to the standard error output.
-/
import DataLisp.Command.Convert

set_option autoImplicit false

namespace DataLisp.Command

/-- The disk as the place where a program keeps its files. -/
def disk : Storage IO where
  read path := do
    try
      return some (← IO.FS.readFile path)
    catch _ =>
      return none
  write path text := do
    try
      IO.FS.writeFile path text
      return true
    catch _ =>
      return false

/-- An exit code in the eight bits that the system keeps of it. -/
def exitStatus (code : Int) : UInt32 :=
  UInt32.ofNat (code % 256).toNat

/-- The version of the programs. -/
def version : String := "0.1.0"

/-- What is said about the use of a program. -/
def usage (program : Program) : String :=
  "Usage: " ++ program.name ++ " [OPTIONS] <INPUT> [OUTPUT]\n\nOptions: " ++
    String.intercalate ", " (program.flags.map fun flag => "--" ++ flag.long)

/-- Runs a program on its arguments. -/
def runProgram (program : Program) (args : List String) : IO UInt32 := do
  match Options.ofArguments program args with
  | .error (.information .version) =>
    IO.println (program.name ++ " " ++ version)
    return 0
  | .error (.information _) =>
    IO.println (usage program)
    return 0
  | .error (.fault e) =>
    IO.eprintln ("error: " ++ e.message ++ "\n\n" ++ usage program)
    return exitStatus usageExitCode
  | .ok options =>
    let outcome ← Command.run disk program options
    IO.print outcome.printed
    for event in outcome.log do
      IO.eprintln event.text
    return exitStatus outcome.exitCode

end DataLisp.Command

open DataLisp.Command in
/-- The entry point. -/
def main (args : List String) : IO UInt32 := do
  match args with
  | name :: rest =>
    match Program.ofName? name with
    | some program => runProgram program rest
    | none =>
      IO.eprintln ("there is no program '" ++ name ++ "'")
      return exitStatus usageExitCode
  | [] =>
    IO.eprintln "the name of a program is missing"
    return exitStatus usageExitCode
