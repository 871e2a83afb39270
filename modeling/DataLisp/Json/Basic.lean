/-
JSON values.

A number is an integer if it is written as one and 64 bits hold it, and a float
otherwise. The members of an object are an ordered map.
-/
import DataLisp.Binary64.Rounding
import DataLisp.OrderedMap

set_option autoImplicit false

namespace DataLisp

/-- A JSON value. -/
inductive Json where
  | null
  | bool (b : Bool)
  | integer (i : Int64)
  | float (x : Binary64)
  | string (s : String)
  | array (items : List Json)
  | object (members : List (String × Json))

instance : Inhabited Json := ⟨.null⟩

end DataLisp
