/-
From JSON text to JSON values.

Beyond the grammar a text has to keep three rules. The units of `\u` escapes are
characters or pairs of surrogates. A number has a value (`Json.ofNumeral?`). Arrays and
objects lie inside each other at most 127 deep. A repeated name keeps its first place
and takes the last value.
-/
import DataLisp.Json.Node
import DataLisp.Json.Number

set_option autoImplicit false

namespace DataLisp.Json

/-- Whether a unit is the first of a pair. -/
def isHighSurrogate (code : Nat) : Bool := 0xD800 ≤ code && code < 0xDC00

/-- Whether a unit is the second of a pair. -/
def isLowSurrogate (code : Nat) : Bool := 0xDC00 ≤ code && code < 0xE000

/-- The characters that the parts of a string write. A unit is a character by itself or
the first of a pair whose second follows at once. -/
def Part.decode? : List Part → Option (List Char)
  | [] => some []
  | .char c :: rest => (decode? rest).map (c :: ·)
  | .unit high :: .unit low :: rest =>
    if isHighSurrogate high then
      if isLowSurrogate low then
        let code := 0x10000 + (high - 0xD800) * 0x400 + (low - 0xDC00)
        (decode? rest).map (Char.ofNat code :: ·)
      else none
    else if isLowSurrogate high then none
    else (decode? (.unit low :: rest)).map (Char.ofNat high :: ·)
  | .unit code :: rest =>
    if isHighSurrogate code || isLowSurrogate code then none
    else (decode? rest).map (Char.ofNat code :: ·)

/-- The text that the parts of a string write. -/
def Part.text? (parts : List Part) : Option String :=
  (Part.decode? parts).map String.ofList

/-- How deep arrays and objects may lie inside each other. -/
def maxDepth : Nat := 127

mutual

/-- The value of a node, with at most the given number of levels. -/
def Node.decode? (levels : Nat) : Node → Option Json
  | .null => some .null
  | .bool b => some (.bool b)
  | .number n => ofNumeral? n
  | .string parts => (Part.text? parts).map .string
  | .array items =>
    if levels = 0 then none else (Nodes.decode? (levels - 1) items).map .array
  | .object members =>
    if levels = 0 then none
    else (NamedNodes.decode? (levels - 1) members).map fun members =>
      .object (OrderedMap.ofList members)

/-- The values of the items of an array. -/
def Nodes.decode? (levels : Nat) : List Node → Option (List Json)
  | [] => some []
  | node :: rest => do
    let v ← node.decode? levels
    return v :: (← Nodes.decode? levels rest)

/-- The members of an object, in order and as often as they come. -/
def NamedNodes.decode? (levels : Nat) : List (List Part × Node) → Option (List (String × Json))
  | [] => some []
  | (parts, node) :: rest => do
    let name ← Part.text? parts
    let v ← node.decode? levels
    return (name, v) :: (← NamedNodes.decode? levels rest)

end

/-- The value that a text writes. -/
def ofText? (text : String) : Option Json := do
  (← Node.ofText? text).decode? maxDepth

end DataLisp.Json
