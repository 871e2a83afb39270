/-
Equality of documents as the arithmetic sees it.

Two documents are the same if they have the same shape, ids, keys and scalars, in the
same order, floats being compared as numbers: a NaN differs from itself and the two
zeros agree. Equality of terms, which compares floats by their bits, is the finer
notion away from NaN.
-/
import DataLisp.Document.Basic

set_option autoImplicit false

namespace DataLisp

mutual

/-- Whether two values are the same. -/
def Value.same : Value → Value → Bool
  | .null, .null => true
  | .string s, .string t => s == t
  | .integer i, .integer j => i == j
  | .float x, .float y => x.sameNumber y
  | .bool a, .bool b => a == b
  | .group g, .group h => g.same h
  | .array xs, .array ys => Items.same xs ys
  | _, _ => false

/-- Whether two groups are the same. -/
def Group.same : Group → Group → Bool
  | ⟨id, named, anonymous⟩, ⟨id', named', anonymous'⟩ =>
    id == id' && Named.same named named' && Values.same anonymous anonymous'

/-- Whether two lists of named entries are the same, in order. -/
def Named.same : List (String × Value) → List (String × Value) → Bool
  | [], [] => true
  | (key, v) :: rest, (key', v') :: rest' => key == key' && v.same v' && Named.same rest rest'
  | _, _ => false

/-- Whether two lists of values are the same, in order. -/
def Values.same : List Value → List Value → Bool
  | [], [] => true
  | v :: rest, v' :: rest' => v.same v' && Values.same rest rest'
  | _, _ => false

/-- Whether two lists of items are the same, keys included, in order. -/
def Items.same : List Item → List Item → Bool
  | [], [] => true
  | ⟨key, v⟩ :: rest, ⟨key', v'⟩ :: rest' => key == key' && v.same v' && Items.same rest rest'
  | _, _ => false

end

/-- Whether two items are the same, keys included. -/
def Item.same (d e : Item) : Bool :=
  d.key == e.key && d.value.same e.value

/-- Whether two documents have the same groups in the same order. -/
def Document.same : Document → Document → Bool
  | [], [] => true
  | g :: rest, h :: rest' => g.same h && Document.same rest rest'
  | _, _ => false

end DataLisp
