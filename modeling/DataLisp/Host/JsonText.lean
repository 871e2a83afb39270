/-
Host data as JSON.

Every JSON value is a host value. The other way there are limits: JSON has no number for
a float that is not finite, and nothing at all for a foreign value. A record becomes an
object of its fields with its type name under the reserved member.
-/
import DataLisp.Binary64.Notation
import DataLisp.Json.Decode
import DataLisp.Json.Text
import DataLisp.Host.OfDocument
import DataLisp.Host.ToDocument

set_option autoImplicit false

namespace DataLisp

/-! ## From JSON -/

mutual

/-- The host value of a JSON value. -/
def HostValue.ofJson : Json → HostValue
  | .null => .null
  | .bool b => .bool b
  | .integer i => .integer i
  | .float x => .float x
  | .string s => .string s
  | .array items => .list (HostValues.ofJson items)
  | .object members => .map (Members.ofJson members)

/-- The host values of the items of an array. -/
def HostValues.ofJson : List Json → List HostValue
  | [] => []
  | v :: rest => HostValue.ofJson v :: HostValues.ofJson rest

/-- The host values of the members of an object. -/
def Members.ofJson : List (String × Json) → List (String × HostValue)
  | [] => []
  | (name, v) :: rest => (name, HostValue.ofJson v) :: Members.ofJson rest

end

/-! ## To JSON -/

/-- What JSON cannot represent. -/
inductive Unrepresentable where
  | float (x : Binary64)
  | foreign (typeName : String)
deriving DecidableEq, Repr

/-- What messages call it. -/
def Unrepresentable.describe : Unrepresentable → String
  | float x => "float " ++ Notation.message.text x
  | foreign typeName => "opaque value of type " ++ typeName

mutual

/-- The JSON value of a host value, or the first thing in it that JSON cannot
represent. -/
def HostValue.toJson : HostValue → Except Unrepresentable Json
  | .null => return .null
  | .bool b => return .bool b
  | .integer i => return .integer i
  | .float x => if x.isFinite then return .float x else throw (.float x)
  | .string s => return .string s
  | .list items => do return .array (← HostValues.toJson items)
  | .map members => do return .object (← Members.toJson members)
  | .record typeName fields => do
    return .object (OrderedMap.insert (← Members.toJson fields) HostValue.idKey (.string typeName))
  | .foreign typeName => throw (.foreign typeName)

/-- The JSON values of the items of a list. -/
def HostValues.toJson : List HostValue → Except Unrepresentable (List Json)
  | [] => return []
  | x :: rest => do
    let v ← x.toJson
    return v :: (← HostValues.toJson rest)

/-- The JSON values of members. -/
def Members.toJson : List (String × HostValue) → Except Unrepresentable (List (String × Json))
  | [] => return []
  | (name, x) :: rest => do
    let v ← x.toJson
    return (name, v) :: (← Members.toJson rest)

end

/-! ## Texts of root maps -/

/-- Why JSON text and host data do not meet. -/
inductive ExchangeError where
  | invalidJson
  | expectedObject (got : String)
  | notRepresentable (what : Unrepresentable)
deriving DecidableEq, Repr

/-- The wording of an error. -/
def ExchangeError.message : ExchangeError → String
  | invalidJson => "invalid JSON"
  | expectedObject got => "expected object at document root, got " ++ got
  | notRepresentable what => "value not representable in JSON: " ++ what.describe

namespace HostValue

/-- The root map that a JSON text writes. -/
def decodeRoot (text : String) : Except ExchangeError (List (String × HostValue)) :=
  match Json.ofText? text with
  | none => .error .invalidJson
  | some v =>
    match HostValue.ofJson v with
    | .map members => .ok members
    | other => .error (.expectedObject other.describe)

/-- The JSON text of a root map. -/
def encodeRoot (layout : Json.Layout) (root : List (String × HostValue)) :
    Except ExchangeError String :=
  match Members.toJson root with
  | .ok members => .ok (Json.text layout (.object members))
  | .error what => .error (.notRepresentable what)

end HostValue

namespace Document

/-- Reads a document from JSON text. -/
def ofJsonText (text : String) : Logged (Except ExchangeError Document) :=
  match HostValue.decodeRoot text with
  | .ok root => do return .ok (← ofHost root)
  | .error e => return .error e

/-- Writes a document as JSON text, groups as maps. -/
def toJsonText (layout : Json.Layout) (doc : Document) : Logged (Except ExchangeError String) := do
  return HostValue.encodeRoot layout (← doc.toHost .map)

end Document

end DataLisp
