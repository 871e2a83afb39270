/-
From host data to documents.

Every member of the root becomes a top group of that name. Maps and records become
groups, lists become arrays, scalars become scalars, and a foreign value becomes null,
which the log mentions. A map takes its id from the member that is reserved for it, a
record from its type name; the reserved member is never an entry. A root member that is
no map and no record is kept as the only anonymous entry of its group.
-/
import DataLisp.Binary64.Notation
import DataLisp.Document.Group
import DataLisp.Event
import DataLisp.Host.Basic

set_option autoImplicit false

namespace DataLisp

/-- The id that a value spells, if it is text, a number or a boolean. -/
def HostValue.idText? : HostValue → Option String
  | .string s => some s
  | .integer i => some (Numeral.ofInt64 i).text
  | .float x => some (Notation.message.text x)
  | .bool b => some (if b then "true" else "false")
  | _ => none

/-- The group without entries that a map names. -/
def Group.ofMembers (members : List (String × HostValue)) : Group :=
  match (OrderedMap.get? members HostValue.idKey).bind HostValue.idText? with
  | some id => .ofId id
  | none => .unknown

mutual

/-- The value of a host value. -/
def HostValue.toValue : HostValue → Logged Value
  | .null => return .null
  | .bool b => return .bool b
  | .integer i => return .integer i
  | .float x => return .float x
  | .string s => return .string s
  | .list items => do return .array (← HostValues.toItems items)
  | .map members => do
    return .group ((Group.ofMembers members).addAll (← Members.toEntries members))
  | .record typeName fields => do
    return .group ((Group.ofId typeName).addAll (← Members.toEntries fields))
  | .foreign typeName => do
    Logged.log .debug "unsupported native value imported as null" [("type_name", typeName)]
    return .null

/-- The items of a list. -/
def HostValues.toItems : List HostValue → Logged (List Item)
  | [] => return []
  | x :: rest => do
    let v ← x.toValue
    return .ofValue v :: (← HostValues.toItems rest)

/-- The entries of a map or record, in order; the reserved member is none. -/
def Members.toEntries : List (String × HostValue) → Logged (List Item)
  | [] => return []
  | (key, x) :: rest =>
    if key = HostValue.idKey then Members.toEntries rest
    else do
      let v ← x.toValue
      return .keyed key v :: (← Members.toEntries rest)

end

/-- The group of a root member, before it is named. -/
def HostValue.toGroup (name : String) (payload : HostValue) : Logged Group := do
  match payload with
  | .map members => return (Group.ofMembers members).addAll (← Members.toEntries members)
  | .record typeName fields => return (Group.ofId typeName).addAll (← Members.toEntries fields)
  | other =>
    Logged.log .debug "wrapping non-group payload" [("group", name), ("kind", other.describe)]
    return Group.unknown.push (← other.toValue)

/-- The document of a root map: a group for each member, named after it. -/
def Document.ofHost : List (String × HostValue) → Logged Document
  | [] => return []
  | (name, payload) :: rest => do
    let g := (← payload.toGroup name).setId name
    Logged.log .trace "imported top group" [("group", name), ("entries", toString g.size)]
    return g :: (← Document.ofHost rest)

end DataLisp
