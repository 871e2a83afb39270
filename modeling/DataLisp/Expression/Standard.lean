/-
The standard expressions: conditions, messages, and the merging of groups.
-/
import DataLisp.Expression.Basic
import DataLisp.Expression.Render

set_option autoImplicit false

namespace DataLisp.Expression

/-- Null, as the result of an expression. -/
def nullItem : Item := .ofValue .null

/-- A truth value as the result of an expression; null where there is none. -/
def truthItem : Option Bool → Item
  | some b => .ofValue (.bool b)
  | none => nullItem

/-! ## Conditions -/

/-- The branch that a condition chooses. -/
def choose (condition yes : Item) (no : Option Item) : Noted Report Item := do
  match ← condition.value.truth with
  | some true => return yes.anonymous
  | some false => return (no.map Item.anonymous).getD nullItem
  | none => return nullItem

/-- `$(if condition then else?)`: one of the branches, null for a missing one. -/
def ifHandler : Handler := fun call =>
  match call.args with
  | [condition, yes] => choose condition yes none
  | [condition, yes, no] => choose condition yes (some no)
  | _ => do
    Noted.note (.error "$(if ...) takes a condition and one or two branches")
    return nullItem

/-- The negation of one value; null where it has no truth. -/
def negate (d : Item) : Noted Report Item := do
  return truthItem ((← d.value.truth).map (!·))

/-- `$(not x)`: the negation of one value, or a group of the negations of several. -/
def notHandler : Handler := fun call =>
  match call.args with
  | [] => return nullItem
  | [single] => negate single
  | many => do
    let negated ← many.mapM negate
    return .ofValue (.group (Group.unknown.addAll negated))

/-- Whether all values agree with `all`, stopping at the first that does not. A value
without truth counts as false, after it is reported. -/
def allAgree (all : Bool) : List Item → Noted Report Bool
  | [] => return true
  | d :: rest => do
    if (← d.value.truth).getD false = all then allAgree all rest else return false

/-- The common part of `and` and `or`: the result is `all` if every value agrees with it,
and its negation otherwise. One value is merely turned into a truth value. -/
def fold (all : Bool) : Handler := fun call =>
  match call.args with
  | [] => return nullItem
  | [single] => return truthItem (← single.value.truth)
  | many => return truthItem (some (if ← allAgree all many then all else !all))

/-- `$(and args...)`. -/
def andHandler : Handler := fold true

/-- `$(or args...)`. -/
def orHandler : Handler := fold false

/-! ## Messages -/

/-- `$(print args...)`: reports its arguments as one message. -/
def printHandler : Handler := fun call => do
  Noted.note ⟨.info, String.join (call.args.map fun d => d.value.render)⟩
  return nullItem

/-! ## Groups -/

/-- What an argument adds to a union: the entries of a group, anything else itself. -/
def contribution (d : Item) : List Item :=
  match d.value with
  | .group g => g.entries
  | _ => [d]

/-- The union of arguments: nothing is null, a single argument is itself, and several are
merged into a group without an id of its own. -/
def union : List Item → Item
  | [] => nullItem
  | [single] => single
  | many => .ofValue (.group (Group.unknown.addAll (many.flatMap contribution)))

/-- `$(union args...)`. -/
def unionHandler : Handler := fun call =>
  return union call.args

/-- `$(named args...)`: the named entries of the union; null if there are none. -/
def namedHandler : Handler := fun call =>
  match (union call.args).value with
  | .group g =>
    if g.named.isEmpty then return nullItem
    else return .ofValue (.group (Group.unknown.addAll g.namedItems))
  | _ => return nullItem

/-- `$(anonymous args...)`: the anonymous entries of the union; what is no group is
passed on. -/
def anonymousHandler : Handler := fun call =>
  let merged := union call.args
  match merged.value with
  | .group g => return .ofValue (.group (Group.unknown.addAll g.anonymousItems))
  | _ => return merged

end DataLisp.Expression

open DataLisp.Expression in
/-- The standard handlers. -/
def DataLisp.Registry.standard : DataLisp.Registry := [
  ("if", ifHandler),
  ("not", notHandler),
  ("and", andHandler),
  ("or", orHandler),
  ("print", printHandler),
  ("union", unionHandler),
  ("named", namedHandler),
  ("anonymous", anonymousHandler)]
