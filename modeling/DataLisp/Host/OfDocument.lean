/-
From documents to host data.

A group becomes a map that holds its id under the reserved member, or a record that has
its id for a type name. Named entries come first under their keys, anonymous ones after
them under their positions `0`, `1`, and so on. The root maps the ids of the top groups
to them; of groups with one id the last is kept, at the place of the first.
-/
import DataLisp.Document.Group
import DataLisp.Event
import DataLisp.Host.Basic

set_option autoImplicit false

namespace DataLisp

/-- What a group becomes. -/
inductive GroupShape where
  | map
  | record
deriving DecidableEq, Repr, Inhabited

/-- A group of the given shape. -/
def HostValue.ofGroupFields (shape : GroupShape) (id : String)
    (fields : List (String × HostValue)) : HostValue :=
  match shape with
  | .map => .map (OrderedMap.insert fields HostValue.idKey (.string id))
  | .record => .record id fields

mutual

/-- The host value of a value. -/
def Value.toHost (shape : GroupShape) : Value → HostValue
  | .null => .null
  | .string s => .string s
  | .integer i => .integer i
  | .float x => .float x
  | .bool b => .bool b
  | .group g => g.toHost shape
  | .array items => .list (Items.toHost shape items)

/-- The host value of a group. -/
def Group.toHost (shape : GroupShape) : Group → HostValue
  | ⟨id, named, anonymous⟩ =>
    HostValue.ofGroupFields shape id
      (OrderedMap.ofList (Named.toHost shape named ++ Values.toHost shape 0 anonymous))

/-- Named entries under their keys. -/
def Named.toHost (shape : GroupShape) : List (String × Value) → List (String × HostValue)
  | [] => []
  | (key, v) :: rest => (key, v.toHost shape) :: Named.toHost shape rest

/-- Anonymous entries under their positions, counted from the given one. -/
def Values.toHost (shape : GroupShape) (index : Nat) : List Value → List (String × HostValue)
  | [] => []
  | v :: rest =>
    ((Numeral.ofInt index).text, v.toHost shape) :: Values.toHost shape (index + 1) rest

/-- The items of an array. -/
def Items.toHost (shape : GroupShape) : List Item → List HostValue
  | [] => []
  | ⟨_, v⟩ :: rest => v.toHost shape :: Items.toHost shape rest

end

namespace Document

/-- Adds top groups to a root map, with a line in the log for each repeated id. -/
def addToHost (shape : GroupShape) (root : List (String × HostValue)) :
    Document → Logged (List (String × HostValue))
  | [] => return root
  | g :: rest => do
    if OrderedMap.contains root g.id then
      Logged.log .debug "repeated top group id, keeping the later group" [("group", g.id)]
    addToHost shape (OrderedMap.insert root g.id (g.toHost shape)) rest

/-- The root map of a document. -/
def toHost (shape : GroupShape) (doc : Document) : Logged (List (String × HostValue)) :=
  addToHost shape [] doc

end Document

end DataLisp
