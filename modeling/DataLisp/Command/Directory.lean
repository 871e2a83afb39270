/-
Directories in memory.

A directory is a tree of folders and files, kept as a list of the places in it. Paths
are relative to its root and resolved the usual way: empty steps and single dots stay
where they are, two dots go up, and every step but the last has to be a folder that is
there. A path that ends in a slash or a dot means a folder. Nothing outside the root can
be reached. A step of more than 255 bytes, a path of more than 4095 bytes and a path
with a NUL in it lead nowhere, not even to a place where a file could be put.
-/
import DataLisp.Command.Convert
import DataLisp.Text.Utf8

set_option autoImplicit false

namespace DataLisp.Command

/-- What is at a place. -/
inductive Node where
  | folder
  | file (bytes : List UInt8)
deriving DecidableEq, Repr

/-- The places of a directory and what is there, each given by the steps from the root.
The root itself is always a folder. -/
structure Directory where
  places : List (List String × Node)
deriving DecidableEq, Repr

namespace Directory

/-- A directory with nothing in it. -/
def empty : Directory := ⟨[]⟩

/-- What is at a place. -/
def get? (d : Directory) (place : List String) : Option Node :=
  if place.isEmpty then some .folder else d.places.lookup place

/-- Puts something at a place. -/
def put (d : Directory) (place : List String) (node : Node) : Directory :=
  if d.places.any fun entry => entry.1 = place then
    ⟨d.places.map fun entry => if entry.1 = place then (place, node) else entry⟩
  else
    ⟨d.places ++ [(place, node)]⟩

/-- The most bytes that a step of a path can have. -/
def maxStepBytes : Nat := 255

/-- The most bytes that a path can have. -/
def maxPathBytes : Nat := 4095

/-- Whether a text is a path that can be followed from the root. -/
def isPath (path : String) : Bool :=
  !path.isEmpty && path.toList.head? ≠ some '/' && path.toList.all (· ≠ '\x00') &&
    path.utf8ByteSize ≤ maxPathBytes

/-- Where a path leads: a place, and whether it must be a folder. -/
structure Target where
  place : List String
  isFolder : Bool
deriving DecidableEq, Repr

/-- Follows the steps of a path from a place that is a folder. The last step may lead to a
place where nothing is. -/
def follow (d : Directory) (place : List String) : List String → Option Target
  | [] => some ⟨place, true⟩
  | step :: rest =>
    if d.get? place ≠ some .folder || maxStepBytes < step.utf8ByteSize then none
    else if step.isEmpty || step = "." then follow d place rest
    else if step = ".." then
      if place.isEmpty then none else follow d place.dropLast rest
    else
      match rest with
      | [] => some ⟨place ++ [step], false⟩
      | _ => follow d (place ++ [step]) rest

/-- Where a path leads. -/
def resolve (d : Directory) (path : String) : Option Target :=
  if isPath path then follow d [] (path.splitOn "/") else none

/-- The bytes of the file that a path leads to. -/
def readBytes? (d : Directory) (path : String) : Option (List UInt8) := do
  let target ← d.resolve path
  match target.isFolder, d.get? target.place with
  | false, some (.file bytes) => some bytes
  | _, _ => none

/-- The text of the file that a path leads to, if it is valid UTF-8. -/
def readText? (d : Directory) (path : String) : Option String := do
  let bytes ← d.readBytes? path
  return String.ofList (← Text.Utf8.decode? bytes)

/-- The directory with a file replaced or added; none if the path cannot name a file. -/
def writeText? (d : Directory) (path : String) (text : String) : Option Directory := do
  let target ← d.resolve path
  match target.isFolder, d.get? target.place with
  | true, _ | _, some .folder => none
  | false, _ => some (d.put target.place (.file (Text.Utf8.encode text.toList)))

/-- A directory as the place where a program keeps its files. -/
def storage : Storage (StateM Directory) where
  read path := return (← get).readText? path
  write path text := do
    match (← get).writeText? path text with
    | some d =>
      set d
      return true
    | none => return false

/-- Runs a program on a directory. -/
def run (d : Directory) (program : Program) (o : Options) : Outcome × Directory :=
  (Command.run storage program o).run d

/-- The files that are new or different in another state of the directory. -/
def changes (before after : Directory) : List (List String × List UInt8) :=
  after.places.filterMap fun (place, node) =>
    match node with
    | .file bytes => if before.get? place = some (.file bytes) then none else some (place, bytes)
    | .folder => none

end Directory

end DataLisp.Command
