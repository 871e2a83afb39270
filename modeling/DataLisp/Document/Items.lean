/-
Operations on arrays.

The operations drop the key of what they put in, so an array that they build holds
items without keys only.
-/
import DataLisp.Document.Basic

set_option autoImplicit false

namespace DataLisp.Items

/-- Appends an item without its key. -/
def push (items : List Item) (d : Item) : List Item :=
  items ++ [d.anonymous]

/-- Replaces the item at a position, or appends at the end; a position past the end
changes nothing. -/
def set (items : List Item) (index : Nat) (d : Item) : List Item :=
  if index = items.length then push items d else List.set items index d.anonymous

/-- The array of the given items, without their keys. -/
def collect (ds : List Item) : List Item :=
  ds.map Item.anonymous

/-- Whether all items are of a kind. -/
def isAll (items : List Item) (kind : Kind) : Bool :=
  items.all fun d => d.value.kind = kind

/-- Whether all items are numbers. -/
def isAllNumber (items : List Item) : Bool :=
  items.all fun d => d.value.isNumber

end DataLisp.Items
