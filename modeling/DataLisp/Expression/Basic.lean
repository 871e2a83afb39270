/-
Expressions.

An expression `$(name args...)` is evaluated by the handler that is registered under
its name. A handler sees the call: the name, the position, and the evaluated arguments
with their keys. It gives an item, and may report; a report carries no position,
so whatever a handler reports stands at its own expression.
-/
import DataLisp.Diagnostic
import DataLisp.Document.Group
import DataLisp.Noted
import DataLisp.Text.Quoted

set_option autoImplicit false

namespace DataLisp

/-- What a handler sees of an expression. -/
structure Call where
  name : String
  position : Position
  args : List Item

/-- Evaluates an expression. -/
abbrev Handler := Call → Noted Report Item

/-- The handlers at hand, each under its name. -/
abbrev Registry := List (String × Handler)

namespace Registry

/-- No handlers. -/
def empty : Registry := []

/-- Adds a handler, or replaces the one of that name. -/
def register (r : Registry) (name : String) (handler : Handler) : Registry :=
  OrderedMap.insert r name handler

/-- The handler of a name. -/
def get? (r : Registry) (name : String) : Option Handler :=
  OrderedMap.get? r name

/-- Whether there is a handler of that name. -/
def contains (r : Registry) (name : String) : Bool :=
  OrderedMap.contains r name

/-- The names in ascending order. -/
def names (r : Registry) : List String :=
  (OrderedMap.keys r).mergeSort fun a b => a ≤ b

/-- The registry as text: its names in order. -/
def describe (r : Registry) : String :=
  "Expressions \x7b handlers: [" ++ String.intercalate ", " (r.names.map Text.quote) ++ "] \x7d"

end Registry

namespace Value

/-- The truth of a value: a boolean is itself, a number is true unless it is zero, and of
anything else there is none, which is reported as an error. -/
def truth : Value → Noted Report (Option Bool)
  | bool b => pure (some b)
  | integer i => pure (some (i ≠ 0))
  | float x => pure (some (!x.isZero))
  | other => do
    Noted.note (.error ("cannot convert '" ++ other.kind.name ++ "' to '" ++ Kind.bool.name ++ "'"))
    return none

end Value

end DataLisp
