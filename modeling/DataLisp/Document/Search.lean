/-
Search in a document.

A search visits every group once, in depth-first preorder: a group, then the groups
below its named entries, then those below its anonymous entries, arrays item by item.
-/
import DataLisp.Document.Group

set_option autoImplicit false

namespace DataLisp

variable {α : Type}

mutual

/-- What a visitor finds in the groups of a value, in preorder. -/
def Value.visit (find : Group → List α) : Value → List α
  | .group g => g.visit find
  | .array items => Items.visit find items
  | .null | .string _ | .integer _ | .float _ | .bool _ => []

/-- What a visitor finds in a group and in the groups below it, in preorder. -/
def Group.visit (find : Group → List α) : Group → List α
  | ⟨id, named, anonymous⟩ =>
    find ⟨id, named, anonymous⟩ ++ (Named.visit find named ++ Values.visit find anonymous)

/-- What a visitor finds below named entries. -/
def Named.visit (find : Group → List α) : List (String × Value) → List α
  | [] => []
  | (_, v) :: rest => v.visit find ++ Named.visit find rest

/-- What a visitor finds below anonymous entries. -/
def Values.visit (find : Group → List α) : List Value → List α
  | [] => []
  | v :: rest => v.visit find ++ Values.visit find rest

/-- What a visitor finds below the items of an array. -/
def Items.visit (find : Group → List α) : List Item → List α
  | [] => []
  | ⟨_, v⟩ :: rest => v.visit find ++ Items.visit find rest

end

namespace Document

/-- The groups with an id, at any depth. -/
def groupsWithId (doc : Document) (id : String) : List Group :=
  doc.flatMap (Group.visit fun g => if g.id = id then [g] else [])

/-- The named entries under a key, of groups at any depth. -/
def itemsWithKey (doc : Document) (key : String) : List Item :=
  doc.flatMap (Group.visit fun g => ((g.get? key).map (Item.keyed key)).toList)

end Document

end DataLisp
