/-
From trees to documents.

Every top-level form becomes a group. Expressions are evaluated from the inside out and
from left to right, each exactly once, also where its value is not used in the end. An
anonymous expression whose value is null leaves no entry behind. A key that comes
again replaces the earlier value, and a warning says so.
-/
import DataLisp.Event
import DataLisp.Expression.Basic
import DataLisp.Tree.Basic

set_option autoImplicit false

namespace DataLisp

/-- What building takes note of: diagnostics for the user, and events for the log. -/
inductive BuildNote where
  | diagnostic (d : Diagnostic)
  | event (e : Event)
deriving DecidableEq, Repr

namespace BuildNote

/-- The diagnostic of a note. -/
def diagnostic? : BuildNote → Option Diagnostic
  | diagnostic d => some d
  | event _ => none

/-- The event of a note. -/
def event? : BuildNote → Option Event
  | diagnostic _ => none
  | event e => some e

end BuildNote

/-- A result of building. -/
abbrev Built := Noted BuildNote

namespace Built

variable {α : Type}

/-- The diagnostics among the notes, in order. -/
def diagnostics (b : Built α) : Diagnostics :=
  b.notes.filterMap BuildNote.diagnostic?

/-- The events among the notes, in order. -/
def events (b : Built α) : List Event :=
  b.notes.filterMap BuildNote.event?

/-- Notes a diagnostic. -/
def report (d : Diagnostic) : Built Unit :=
  Noted.note (.diagnostic d)

/-- Notes an event. -/
def log (severity : Severity) (message : String) (fields : List (String × String)) :
    Built Unit :=
  Noted.note (.event ⟨severity, message, fields⟩)

end Built

namespace Tree

/-- Evaluates an expression on its arguments. An unknown name is an error, and its value
is null. Of what a handler gives only the value is kept. -/
def evaluate (registry : Registry) (call : Call) : Built Value :=
  match registry.get? call.name with
  | none => do
    Built.report (.error call.position ("unknown expression '$(" ++ call.name ++ ")'"))
    return .null
  | some handler => do
    let result ← (handler call).mapNotes fun r => .diagnostic (r.place call.position)
    Built.log .debug "evaluated expression"
      [("expression", call.name), ("kind", result.value.kind.name)]
    return result.value

/-- Whether a value leaves no entry behind: an anonymous expression that came to null. -/
def isDropped (key : Option String) (tree : Tree) (v : Value) : Bool :=
  key.isNone && tree.isExpression && v.isNull

/-- Adds an entry to a group, with a warning if it replaces another. -/
def addEntry (g : Group) (d : Item) (p : Position) : Built Group := do
  if (g.replaced? d).isSome then
    Built.report (.warning p ("duplicate key ':" ++ d.key.getD "" ++ "' in '" ++ g.id ++
      "', keeping the later value"))
  return g.add d

end Tree

mutual

/-- The value of a tree. -/
def Tree.build (registry : Registry) : Tree → Built Value
  | .group form => do return .group (← form.build registry)
  | .array items => do return .array (← Trees.build registry items)
  | .expression ⟨name, entries, p⟩ => do
    Tree.evaluate registry ⟨name, p, ← Entries.arguments registry entries⟩
  | .integer i => return .integer i
  | .float x => return .float x
  | .string s => return .string s
  | .bool b => return .bool b
  | .null => return .null
  | .invalid => return .null

/-- The group of a form. -/
def Form.build (registry : Registry) : Form → Built Group
  | ⟨name, entries, _⟩ => Entries.build registry (Group.ofId name) entries

/-- A group with further entries. -/
def Entries.build (registry : Registry) (g : Group) : List Entry → Built Group
  | [] => return g
  | ⟨key, tree, p⟩ :: rest => do
    let v ← tree.build registry
    if Tree.isDropped key tree v then
      Entries.build registry g rest
    else
      let g ← Tree.addEntry g ⟨key, v⟩ p
      Entries.build registry g rest

/-- The arguments of an expression. -/
def Entries.arguments (registry : Registry) : List Entry → Built (List Item)
  | [] => return []
  | ⟨key, tree, _⟩ :: rest => do
    let v ← tree.build registry
    return ⟨key, v⟩ :: (← Entries.arguments registry rest)

/-- The items of an array. -/
def Trees.build (registry : Registry) : List Tree → Built (List Item)
  | [] => return []
  | tree :: rest => do
    let v ← tree.build registry
    let more ← Trees.build registry rest
    return if Tree.isDropped none tree v then more else .ofValue v :: more

end

/-- The document of parsed forms: one group for each. -/
def Document.ofForms (registry : Registry) : List Form → Built Document
  | [] => return []
  | form :: rest => do
    let g ← form.build registry
    Built.log .trace "built top group" [("group", g.id), ("entries", toString g.size)]
    return g :: (← Document.ofForms registry rest)

end DataLisp
