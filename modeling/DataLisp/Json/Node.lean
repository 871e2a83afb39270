/-
The structure of JSON text.

A node is a JSON text as its grammar sees it: numbers and strings as they are written,
members in order and repeated where the text repeats them. Reading the grammar apart
from the values matters where a part of the text is skipped: such a part has to be
grammatical and nothing else.

The reader of nodes is a machine that takes one token after the other. Its state is what
it expects next and, for each array or object that is open, what was read of it.
-/
import DataLisp.Json.Token

set_option autoImplicit false

namespace DataLisp.Json

/-- A JSON text by its grammar. -/
inductive Node where
  | null
  | bool (b : Bool)
  | number (n : Numeral)
  | string (parts : List Part)
  | array (items : List Node)
  | object (members : List (List Part × Node))

instance : Inhabited Node := ⟨.null⟩

namespace Node

/-- An array or object that is open around the value that is read: its items or members
so far, the latest first, and for an object the name of the value. -/
inductive Frame where
  | array (before : List Node)
  | object (before : List (List Part × Node)) (name : List Part)

/-- What the machine expects. -/
inductive Expecting where
  /-- A value. -/
  | value
  /-- A value, or the end of an array that has just been opened. -/
  | firstItem
  /-- A name, or the end of an object that has just been opened. -/
  | firstName
  /-- A name, after the given members. -/
  | name (before : List (List Part × Node))
  /-- A colon, after the given members and a name. -/
  | colon (before : List (List Part × Node)) (name : List Part)
  /-- What comes after a value. -/
  | after (v : Node)

/-- The state of the machine: what it expects, and what is open, the innermost first. -/
structure State where
  expecting : Expecting
  frames : List Frame

/-- The state before the first token. -/
def State.start : State := ⟨.value, []⟩

/-- A token where a value is expected. -/
def beginValue (frames : List Frame) : Token → Option State
  | .null => some ⟨.after .null, frames⟩
  | .bool b => some ⟨.after (.bool b), frames⟩
  | .number n => some ⟨.after (.number n), frames⟩
  | .string parts => some ⟨.after (.string parts), frames⟩
  | .openBracket => some ⟨.firstItem, frames⟩
  | .openBrace => some ⟨.firstName, frames⟩
  | _ => none

/-- A token after a value. -/
def afterValue (v : Node) : List Frame → Token → Option State
  | .array before :: frames, .comma => some ⟨.value, .array (v :: before) :: frames⟩
  | .array before :: frames, .closeBracket => some ⟨.after (.array (v :: before).reverse), frames⟩
  | .object before name :: frames, .comma => some ⟨.name ((name, v) :: before), frames⟩
  | .object before name :: frames, .closeBrace =>
    some ⟨.after (.object ((name, v) :: before).reverse), frames⟩
  | _, _ => none

/-- One token; none if it has no place there. -/
def step : State → Token → Option State
  | ⟨.value, frames⟩, t => beginValue frames t
  | ⟨.firstItem, frames⟩, .closeBracket => some ⟨.after (.array []), frames⟩
  | ⟨.firstItem, frames⟩, t => beginValue (.array [] :: frames) t
  | ⟨.firstName, frames⟩, .closeBrace => some ⟨.after (.object []), frames⟩
  | ⟨.firstName, frames⟩, .string name => some ⟨.colon [] name, frames⟩
  | ⟨.firstName, _⟩, _ => none
  | ⟨.name before, frames⟩, .string name => some ⟨.colon before name, frames⟩
  | ⟨.name _, _⟩, _ => none
  | ⟨.colon before name, frames⟩, .colon => some ⟨.value, .object before name :: frames⟩
  | ⟨.colon _ _, _⟩, _ => none
  | ⟨.after v, frames⟩, t => afterValue v frames t

/-- The value of a state in which a whole text has been read. -/
def State.result? : State → Option Node
  | ⟨.after v, []⟩ => some v
  | _ => none

/-- The node that tokens write. -/
def ofTokens? (tokens : List Token) : Option Node := do
  (← tokens.foldlM step .start).result?

/-- The node that a text writes. -/
def ofText? (text : String) : Option Node := do
  ofTokens? (← scan text.toList)

end Node

end DataLisp.Json
