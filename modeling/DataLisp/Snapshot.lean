/-
Snapshots.

A snapshot is a JSON text that keeps a document as it is: ids, keys, order, and the
kinds of all values. A value is written under the name of its kind, null as that name
alone. Floats that are not finite are written as null and cannot be loaded again.

Loading is strict about what it needs and lenient about the rest. A structure may come
as an object, whose unknown members are skipped and need only be grammatical, or as the
array of its fields. Entries are added to their group again one by one, so what is
loaded keeps the rules of groups whatever the text says.
-/
import DataLisp.Document.Group
import DataLisp.Json.Decode
import DataLisp.Json.Text

set_option autoImplicit false

namespace DataLisp

/-! ## Saving -/

namespace Snapshot

/-- An item, given its key if it has one and the JSON of its value. -/
def itemJson (key : Option String) (value : Json) : Json :=
  .object ((key.map fun key => ("key", Json.string key)).toList ++ [("value", value)])

/-- A group with the JSON of its entries. -/
def groupJson (id : String) (named anonymous : List Json) : Json :=
  .object [("id", .string id), ("named", .array named), ("anonymous", .array anonymous)]

/-- A value under the name of its kind. -/
def variant (kind : Kind) (value : Json) : Json :=
  .object [(kind.name, value)]

end Snapshot

open Snapshot in
mutual

/-- The JSON that saves a value. -/
def Value.toSnapshot : Value → Json
  | .null => .string Kind.null.name
  | .string s => variant .string (.string s)
  | .integer i => variant .integer (.integer i)
  | .float x => variant .float (.float x)
  | .bool b => variant .bool (.bool b)
  | .group g => variant .group g.toSnapshot
  | .array items => variant .array (.object [("items", .array (Items.toSnapshot items))])

/-- The JSON that saves a group. -/
def Group.toSnapshot : Group → Json
  | ⟨id, named, anonymous⟩ =>
    Snapshot.groupJson id (Named.toSnapshot named) (Values.toSnapshot anonymous)

/-- The JSON that saves named entries. -/
def Named.toSnapshot : List (String × Value) → List Json
  | [] => []
  | (key, v) :: rest => Snapshot.itemJson (some key) v.toSnapshot :: Named.toSnapshot rest

/-- The JSON that saves anonymous entries. -/
def Values.toSnapshot : List Value → List Json
  | [] => []
  | v :: rest => Snapshot.itemJson none v.toSnapshot :: Values.toSnapshot rest

/-- The JSON that saves the items of an array, with the keys they carry. -/
def Items.toSnapshot : List Item → List Json
  | [] => []
  | ⟨key, v⟩ :: rest => Snapshot.itemJson key v.toSnapshot :: Items.toSnapshot rest

end

/-- The snapshot of a document. -/
def Document.toSnapshot (doc : Document) : String :=
  Json.text .compact (.object [("top_groups", .array (doc.map Group.toSnapshot))])

/-! ## Loading -/

namespace Snapshot

open Json (Node Part)

/-- The members of an object with their names decoded. -/
def namedMembers : List (List Part × Node) → Option (List (String × Node))
  | [] => some []
  | (parts, node) :: rest => do
    let name ← Part.text? parts
    return (name, node) :: (← namedMembers rest)

/-- The one member of a name; it may be missing, but not come twice. -/
def memberOnce? (members : List (String × Node)) (name : String) : Option (Option Node) :=
  match members.filter fun m => m.1 = name with
  | [] => some none
  | [m] => some (some m.2)
  | _ => none

/-- The fields of a structure, each of which may be missing from an object. An array has
them all, in order. -/
def fields? (names : List String) : Node → Option (List (Option Node))
  | .object members => do
    let members ← namedMembers members
    names.mapM (memberOnce? members)
  | .array items => if items.length = names.length then some (items.map some) else none
  | _ => none

/-- The text of a string. -/
def text? : Node → Option String
  | .string parts => Part.text? parts
  | _ => none

/-- The key of an item: a string, or null for none. -/
def key? : Node → Option (Option String)
  | .null => some none
  | node => (text? node).map some

/-- A scalar under the name of its kind. -/
def scalar? : Kind → Node → Option Value
  | .null, .null => some .null
  | .string, node => (text? node).map .string
  | .integer, .number n => (Json.integer? n).map .integer
  | .float, .number n => (Json.finite? n).map .float
  | .bool, .bool b => some (.bool b)
  | _, _ => none

/-- The kind of a name. -/
def kind? (name : String) : Option Kind :=
  [Kind.null, .string, .integer, .float, .bool, .group, .array].find? fun kind => kind.name = name

mutual

/-- Loads a value, with at most the given number of levels of brackets. -/
def value? : Nat → Node → Option Value
  | _, .string parts => do
    if (← Part.text? parts) = Kind.null.name then some .null else none
  | levels + 1, .object [(parts, node)] => do
    match ← kind? (← Part.text? parts) with
    | .group => return .group (← group? levels node)
    | .array => return .array (← array? levels node)
    | kind => scalar? kind node
  | _, _ => none

/-- Loads the structure of an array. -/
def array? : Nat → Node → Option (List Item)
  | 0, _ => none
  | levels + 1, node => do
    match ← fields? ["items"] node with
    | [some items] => list? levels items
    | _ => none

/-- Loads a group. -/
def group? : Nat → Node → Option Group
  | 0, _ => none
  | levels + 1, node => do
    match ← fields? ["id", "named", "anonymous"] node with
    | [some id, some named, some anonymous] =>
      let id ← text? id
      let named ← list? levels named
      let anonymous ← list? levels anonymous
      return (Group.ofId id).addAll (named ++ anonymous)
    | _ => none

/-- Loads a list of items. -/
def list? : Nat → Node → Option (List Item)
  | levels + 1, .array items => items.mapM (item? levels)
  | _, _ => none

/-- Loads an item. -/
def item? : Nat → Node → Option Item
  | 0, _ => none
  | levels + 1, node => do
    match ← fields? ["key", "value"] node with
    | [key, some value] =>
      let key ← key? (key.getD .null)
      return ⟨key, ← value? levels value⟩
    | _ => none

end

/-- Loads the list of top groups. -/
def groups? : Nat → Node → Option Document
  | levels + 1, .array items => items.mapM (group? levels)
  | _, _ => none

/-- Loads a document. -/
def document? : Nat → Node → Option Document
  | 0, _ => none
  | levels + 1, node => do
    match ← fields? ["top_groups"] node with
    | [some groups] => groups? levels groups
    | _ => none

end Snapshot

/-- The document of a snapshot. -/
def Document.ofSnapshot? (text : String) : Option Document := do
  Snapshot.document? Json.maxDepth (← Json.Node.ofText? text)

end DataLisp
