/-
From tokens to trees.

The grammar, with commas as optional separators:

    text       = { "(" form ")" }
    form       = identifier entries
    entries    = { entry }
    entry      = [ ":" key ] value
    value      = "(" form ")" | "[" entries "]" | "$(" identifier entries ")" | scalar

Nesting is limited. The parser of values recurses on the levels that are left, and
where none is left it skips a whole balanced value instead of entering it, so the depth
of every tree is bounded whatever the text holds. Everything else is a loop over
entries.
-/
import DataLisp.Token.Scan
import DataLisp.Tree.Basic
import DataLisp.Tree.Parser

set_option autoImplicit false

namespace DataLisp.Tree

open DataLisp.Tree.Parser

/-! ## Classes of tokens -/

/-- Whether a token opens a group, an array or an expression. -/
def opens : Token → Bool
  | .openParen | .openBracket | .openExpression => true
  | _ => false

/-- Whether a token closes what another has opened. -/
def closes : Token → Bool
  | .closeParen | .closeBracket => true
  | _ => false

/-- Whether an entry can start with a token. -/
def startsEntry : Token → Bool
  | .colon | .openParen | .openBracket | .openExpression => true
  | .integer _ | .float _ | .string _ | .bool _ | .null => true
  | _ => false

/-! ## Parts of a form -/

/-- The name of a form, or an empty one where there is none. -/
def name : Parser String := do
  match ← peek with
  | some (.identifier name) =>
    skip
    return String.ofList name
  | got =>
    report (.expected .identifier got)
    return ""

/-- A key: an identifier or an unsigned integer. A signed one is taken and refused. -/
def key : Parser (Option String) := do
  match ← peek with
  | some (.identifier name) =>
    skip
    return some (String.ofList name)
  | some (.integer n) =>
    if n.isUnsigned then
      skip
      return some n.text
    else
      report (.signedKey n)
      skip
      return none
  | got =>
    report (.expected .key got)
    return none

/-- An entry, given a parser of values. -/
def entry (value : Parser Tree) : Parser Entry := do
  let p ← position
  let key ← if ← eat .colon then key else pure none
  let value ← value
  return ⟨key, value, p⟩

/-- Entries as long as there are any, each with an optional comma after it. -/
def entries (value : Parser Tree) : Parser (List Entry) :=
  many startsEntry do
    let e ← entry value
    let _ ← eat .comma
    return e

/-- The items of an array: entries that should have no keys. -/
def items (value : Parser Tree) : Parser (List Tree) :=
  many startsEntry do
    let e ← entry value
    if e.key.isSome then
      reportAt e.position .keyedItem
    let _ ← eat .comma
    return e.value

/-- The inside of a group whose opening token stands at `p`. -/
def groupForm (value : Parser Tree) (p : Position) : Parser Form := do
  let name ← name
  let _ ← eat .comma
  return ⟨name, ← entries value, p⟩

/-- The inside of an expression whose opening token stands at `p`. -/
def expressionForm (value : Parser Tree) (p : Position) : Parser Form := do
  let name ← name
  return ⟨name, ← entries value, p⟩

/-! ## Values -/

/-- A scalar, or an invalid value where there is none. -/
def scalar : Parser Tree := do
  match ← peek with
  | some (.integer n) =>
    match n.toInt64? with
    | some i =>
      skip
      return .integer i
    | none =>
      report (.outOfRange n)
      skip
      return .invalid
  | some (.float n) =>
    skip
    return .float n.toBinary64
  | some (.string content) =>
    skip
    return .string (String.ofList content)
  | some (.bool b) =>
    skip
    return .bool b
  | some .null =>
    skip
    return .null
  | got =>
    report (.expected .value got)
    return .invalid

/-- Drops tokens until everything that was opened is closed, brackets of all sorts
counting alike. `depth` counts what is open. -/
def dropBalanced : Nat → List PlacedToken → List PlacedToken
  | _, [] => []
  | depth, t :: rest =>
    if opens t.token then dropBalanced (depth + 1) rest
    else if closes t.token then
      if depth ≤ 1 then rest else dropBalanced (depth - 1) rest
    else dropBalanced depth rest

/-- A value with at most the given number of levels. -/
def value : Nat → Parser Tree
  | 0 => do
    if (← peek).any opens then
      report .tooDeep
      modify (dropBalanced 0)
      return .invalid
    else
      scalar
  | levels + 1 => do
    let p ← position
    match ← peek with
    | some .openParen =>
      skip
      let form ← groupForm (value levels) p
      expect .closeParen
      return .group form
    | some .openBracket =>
      skip
      let items ← items (value levels)
      expect .closeBracket
      return .array items
    | some .openExpression =>
      skip
      let form ← expressionForm (value levels) p
      expect .closeParen
      return .expression form
    | _ => scalar

/-! ## Texts -/

/-- A top-level group, or a token that has no place there. -/
def top : Parser (Option Form) := do
  let p ← position
  match ← peek with
  | some .openParen =>
    skip
    let form ← groupForm (value maxDepth) p
    expect .closeParen
    return some form
  | some got =>
    report (.outside got)
    skip
    return none
  | none => return none

/-- All top-level groups. -/
def tops : Parser (List Form) := do
  return (← many (fun _ => true) top).filterMap id

end DataLisp.Tree

namespace DataLisp

/-- A parsed text: its top-level groups, and everything that is wrong with it, faults in
spelling before faults in structure. -/
structure Parsed where
  forms : List Form
  diagnostics : Diagnostics

/-- Parses a text. -/
def Parsed.ofText (text : String) : Parsed :=
  let scanned := Token.scan text
  let result := Tree.tops scanned.stop scanned.tokens
  ⟨result.value.1, scanned.problems ++ result.notes⟩

end DataLisp
