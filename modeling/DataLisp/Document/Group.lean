/-
Operations on groups.

An entry with a key goes into the ordered map of named entries, one without a key to
the end of the anonymous ones. An empty id stands for the unknown id, so no group made
here has an empty one.
-/
import DataLisp.Document.Basic
import DataLisp.OrderedMap

set_option autoImplicit false

namespace DataLisp.Group

/-- The id of groups that have none of their own. -/
def unknownId : String := "__unknown__"

/-- The id that a text gives: an empty one stands for the unknown id. -/
def resolveId (id : String) : String :=
  if id.isEmpty then unknownId else id

/-- A group without entries. -/
def ofId (id : String) : Group := ⟨resolveId id, [], []⟩

/-- A group without entries and without an id of its own. -/
def unknown : Group := ofId unknownId

/-- The same entries under another id. -/
def setId (g : Group) (id : String) : Group :=
  { g with id := resolveId id }

/-- Sets a named entry. -/
def insert (g : Group) (key : String) (value : Value) : Group :=
  { g with named := OrderedMap.insert g.named key value }

/-- Appends an anonymous entry. -/
def push (g : Group) (value : Value) : Group :=
  { g with anonymous := g.anonymous ++ [value] }

/-- Adds an item as a named or an anonymous entry, as its key says. -/
def add (g : Group) : Item → Group
  | ⟨some key, value⟩ => g.insert key value
  | ⟨none, value⟩ => g.push value

/-- Adds items in order. -/
def addAll (g : Group) (entries : List Item) : Group :=
  entries.foldl add g

/-- The value under a key. -/
def get? (g : Group) (key : String) : Option Value :=
  OrderedMap.get? g.named key

/-- Whether there is an entry under a key. -/
def hasKey (g : Group) (key : String) : Bool :=
  OrderedMap.contains g.named key

/-- The named entry that adding `d` replaces, if there is one. -/
def replaced? (g : Group) (d : Item) : Option Item :=
  d.key.bind fun key => (g.get? key).map (Item.keyed key)

/-- The number of entries of both sorts. -/
def size (g : Group) : Nat :=
  g.named.length + g.anonymous.length

/-- Whether there are no entries. -/
def isEmpty (g : Group) : Bool :=
  g.named.isEmpty && g.anonymous.isEmpty

/-- The named entries as items. -/
def namedItems (g : Group) : List Item :=
  g.named.map Item.ofEntry

/-- The anonymous entries as items. -/
def anonymousItems (g : Group) : List Item :=
  g.anonymous.map Item.ofValue

/-- All entries, the named ones first. -/
def entries (g : Group) : List Item :=
  g.namedItems ++ g.anonymousItems

/-- All entries, the anonymous ones first: the order in which text shows them. -/
def written (g : Group) : List Item :=
  g.anonymousItems ++ g.namedItems

/-! ## Small laws -/

theorem resolveId_ne_empty (id : String) : (resolveId id).isEmpty = false := by
  unfold resolveId
  cases h : id.isEmpty
  · simpa using h
  · simp; decide

end DataLisp.Group
