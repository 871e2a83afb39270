/-
Host data.

Documents are exchanged with their host as loosely typed data: scalars, lists, maps
with text keys in order, records that carry the name of their type, and foreign values
of which only a type name is known. The members of maps and the fields of records are
ordered maps.
-/
import DataLisp.Binary64.Rounding
import DataLisp.OrderedMap

set_option autoImplicit false

namespace DataLisp

/-- A value of the host. -/
inductive HostValue where
  | null
  | bool (b : Bool)
  | integer (i : Int64)
  | float (x : Binary64)
  | string (s : String)
  | list (items : List HostValue)
  | map (members : List (String × HostValue))
  | record (typeName : String) (fields : List (String × HostValue))
  | foreign (typeName : String)

instance : Inhabited HostValue := ⟨.null⟩

namespace HostValue

/-- The member that holds the id of a group. -/
def idKey : String := "__id__"

/-- What messages call a value: its sort, or the type name where there is one. -/
def describe : HostValue → String
  | null => "null"
  | bool _ => "bool"
  | integer _ => "integer"
  | float _ => "float"
  | string _ => "string"
  | list _ => "list"
  | map _ => "map"
  | record typeName _ => typeName
  | foreign typeName => typeName

/-- Whether a value is null. -/
def isNull : HostValue → Bool
  | null => true
  | _ => false

/-- The members of a map. -/
def members? : HostValue → Option (List (String × HostValue))
  | map members => some members
  | _ => none

/-- A record of the fields in the list, a later one replacing an earlier one of the same
name. -/
def ofFields (typeName : String) (fields : List (String × HostValue)) : HostValue :=
  record typeName (OrderedMap.ofList fields)

end HostValue

mutual

/-- Whether two values are the same, floats compared as numbers and members in order. -/
def HostValue.same : HostValue → HostValue → Bool
  | .null, .null => true
  | .bool a, .bool b => a == b
  | .integer i, .integer j => i == j
  | .float x, .float y => x.sameNumber y
  | .string s, .string t => s == t
  | .list xs, .list ys => HostValues.same xs ys
  | .map m, .map n => Members.same m n
  | .record s m, .record t n => s == t && Members.same m n
  | .foreign s, .foreign t => s == t
  | _, _ => false

/-- Whether two lists are the same. -/
def HostValues.same : List HostValue → List HostValue → Bool
  | [], [] => true
  | x :: xs, y :: ys => x.same y && HostValues.same xs ys
  | _, _ => false

/-- Whether two maps have the same members in the same order. -/
def Members.same : List (String × HostValue) → List (String × HostValue) → Bool
  | [], [] => true
  | (key, x) :: xs, (key', y) :: ys => key == key' && x.same y && Members.same xs ys
  | _, _ => false

end

end DataLisp
