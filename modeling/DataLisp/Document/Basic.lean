/-
The document model.

A document is a list of groups. A group has an id, entries under distinct names, and
anonymous entries that only their position tells apart. A value is a scalar, a group
or an array. An item is a value with an optional key; items are what arrays hold and
what expressions take as arguments.

That a named entry has a key and an anonymous one has none is part of the type. That
the keys of a group are distinct is kept by the operations in `Document.Group`, which
are the only way entries get into a group.
-/
import DataLisp.Binary64.Rounding

set_option autoImplicit false

namespace DataLisp

mutual

/-- A value of a document. -/
inductive Value where
  | null
  | string (s : String)
  | integer (i : Int64)
  | float (x : Binary64)
  | bool (b : Bool)
  | group (g : Group)
  | array (items : List Item)

/-- A record with an id, named entries in order of first insertion, and anonymous
entries in order. -/
structure Group where
  id : String
  named : List (String × Value)
  anonymous : List Value

/-- A value that may carry a key. -/
structure Item where
  key : Option String
  value : Value

end

instance : Inhabited Value := ⟨.null⟩
instance : Inhabited Item := ⟨⟨none, .null⟩⟩
instance : Inhabited Group := ⟨⟨"", [], []⟩⟩

/-- A document: its top groups in order. -/
abbrev Document := List Group

/-- The kinds of value. -/
inductive Kind where
  | null
  | string
  | integer
  | float
  | bool
  | group
  | array
deriving DecidableEq, Repr, Inhabited

/-- The name of a kind, as messages and logs give it. -/
def Kind.name : Kind → String
  | null => "Null"
  | string => "String"
  | integer => "Integer"
  | float => "Float"
  | bool => "Bool"
  | group => "Group"
  | array => "Array"

namespace Value

/-- The kind of a value. -/
def kind : Value → Kind
  | null => .null
  | string _ => .string
  | integer _ => .integer
  | float _ => .float
  | bool _ => .bool
  | group _ => .group
  | array _ => .array

/-- Whether a value is null. -/
def isNull : Value → Bool
  | null => true
  | _ => false

/-- The text of a string. -/
def string? : Value → Option String
  | string s => some s
  | _ => none

/-- The number of an integer. -/
def integer? : Value → Option Int64
  | integer i => some i
  | _ => none

/-- The number of a float. -/
def float? : Value → Option Binary64
  | float x => some x
  | _ => none

/-- The truth value of a boolean. -/
def bool? : Value → Option Bool
  | bool b => some b
  | _ => none

/-- The group of a group value. -/
def group? : Value → Option Group
  | group g => some g
  | _ => none

/-- The items of an array. -/
def array? : Value → Option (List Item)
  | array items => some items
  | _ => none

/-- Whether a value is an integer or a float. -/
def isNumber : Value → Bool
  | integer _ => true
  | float _ => true
  | _ => false

/-- An integer or a float as a float; an integer that has no float of its own becomes the
nearest one. -/
def number? : Value → Option Binary64
  | integer i => some (Binary64.ofInt i.toInt)
  | float x => some x
  | _ => none

end Value

namespace Item

/-- A value without a key. -/
def ofValue (v : Value) : Item := ⟨none, v⟩

/-- A value under a key. -/
def keyed (key : String) (v : Value) : Item := ⟨some key, v⟩

/-- A named entry as an item. -/
def ofEntry (entry : String × Value) : Item := keyed entry.1 entry.2

/-- The same value without its key. -/
def anonymous (d : Item) : Item := ⟨none, d.value⟩

/-- Whether there is no key. -/
def isAnonymous (d : Item) : Bool := d.key.isNone

end Item

end DataLisp
