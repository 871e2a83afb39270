/-
Conditions.

`and` and `or` are one loop. It goes over the arguments until one disagrees with what is looked
for, and an argument that has no truth is reported and counts as false. What such a loop looks at
is the run of arguments that agree and the one that stops it, so its reports are the faults of
these (`allAgree_eq`). This is one statement for both operators, and each says by itself where
faults can be: in the argument that stops an `and`, since those before it are true, and before the
one that stops an `or`, since that one is true.

Where every argument has a truth, nothing is reported and the handlers are the operations on truth
values, for a single argument too, so De Morgan's laws are those of lists.
-/
import DataLisp.Expression.Standard
import Mathlib.Data.List.TakeWhile

set_option autoImplicit false

namespace DataLisp

/-! ## What has a truth -/

/-- Whether a value can be turned into a truth value: booleans and numbers can. -/
def Value.isConvertible (v : Value) : Bool :=
  v.kind = .bool || v.isNumber

/-- Whether a value counts as true: the boolean that is true, and a number that is not equal to
zero. A NaN is equal to nothing. -/
def Value.isTruthy : Value → Bool
  | .bool b => b
  | .integer i => i ≠ 0
  | .float x => !x.sameNumber (.zero false)
  | .null | .string _ | .group _ | .array _ => false

/-- What is reported of an argument that is turned into a truth value. -/
def Item.faults (d : Item) : List Report :=
  if d.value.isConvertible then []
  else [.error ("cannot convert '" ++ d.value.kind.name ++ "' to '" ++ Kind.bool.name ++ "'")]

theorem Binary64.sameNumber_zero (x : Binary64) : x.sameNumber (.zero false) = x.isZero := by
  have hzero : (zero false).isNaN = false ∧ (zero false).isZero = true := ⟨rfl, rfl⟩
  rw [sameNumber, hzero.1, hzero.2]
  cases hx : x.isZero with
  | true =>
    have hnumber : x.isNaN = false := by
      rw [isNaN, of_decide_eq_true hx]
      decide
    simp [hnumber]
  | false =>
    have hne : x ≠ zero false := by
      rintro rfl
      rw [hzero.2] at hx
      cases hx
    simp [hne]

theorem Value.isConvertible_of_isTruthy {v : Value} (h : v.isTruthy = true) :
    v.isConvertible = true := by
  cases v with
  | bool _ | integer _ | float _ => rfl
  | null | string _ | group _ | array _ => cases h

/-- **The truth of a value**, with what is reported of it. -/
theorem Item.truth_eq (d : Item) : d.value.truth =
    ⟨if d.value.isConvertible then some d.value.isTruthy else none, d.faults⟩ := by
  obtain ⟨key, v⟩ := d
  cases v with
  | bool _ | integer _ => rfl
  | float x =>
    have htruthy : (Value.float x).isTruthy = !x.isZero := by
      rw [Value.isTruthy, Binary64.sameNumber_zero]
    have hconvertible : (Value.float x).isConvertible = true := rfl
    rw [faults, hconvertible, htruthy]
    rfl
  | null | string _ | group _ | array _ => rfl

theorem Item.truth_of_convertible {d : Item} (h : d.value.isConvertible = true) :
    d.value.truth = pure (some d.value.isTruthy) := by
  rw [truth_eq, faults, if_pos h, if_pos h]
  rfl

/-- What has no truth counts as false. -/
theorem Item.getD_truth (d : Item) : d.value.truth.value.getD false = d.value.isTruthy := by
  rw [truth_eq]
  cases htruthy : d.value.isTruthy with
  | true => rw [if_pos (Value.isConvertible_of_isTruthy htruthy), Option.getD_some]
  | false => cases d.value.isConvertible <;> rfl

theorem Item.faults_of_isTruthy {d : Item} (h : d.value.isTruthy = true) : d.faults = [] :=
  if_pos (Value.isConvertible_of_isTruthy h)

namespace Expression

/-! ## The loop -/

/-- The arguments that a loop looks at: those that agree, and the one that stops it. -/
def examined (all : Bool) (ds : List Item) : List Item :=
  (ds.takeWhile fun d => d.value.isTruthy = all) ++
    (ds.find? fun d => d.value.isTruthy ≠ all).toList

theorem allAgree_cons (all : Bool) (d : Item) (rest : List Item) : allAgree all (d :: rest) =
    if d.value.isTruthy = all then
      ⟨(allAgree all rest).value, d.faults ++ (allAgree all rest).notes⟩
    else ⟨false, d.faults⟩ := by
  have hnext : ∀ next : Bool → Noted Report Bool,
      (do next ((← d.value.truth).getD false)) =
        ⟨(next d.value.isTruthy).value, d.faults ++ (next d.value.isTruthy).notes⟩ := by
    intro next
    have hnotes : d.value.truth.notes = d.faults := by rw [d.truth_eq]
    rw [← d.getD_truth, ← hnotes]
    rfl
  rw [allAgree]
  refine (hnext fun b => if b = all then allAgree all rest else return false).trans ?_
  dsimp only
  split
  · rfl
  · rw [Noted.value_pure, Noted.notes_pure, List.append_nil]

/-- **What the loop finds and reports.** -/
theorem allAgree_eq (all : Bool) (ds : List Item) : allAgree all ds =
    ⟨ds.all fun d => d.value.isTruthy = all, (examined all ds).flatMap Item.faults⟩ := by
  induction ds with
  | nil => rfl
  | cons d rest ih =>
    rw [allAgree_cons, ih]
    by_cases hagrees : d.value.isTruthy = all
    · simp [examined, hagrees]
    · simp [examined, hagrees]

/-! ## Both operators -/

/-- What the loop comes to, given what is looked for. -/
def verdict (all : Bool) (ds : List Item) : Bool :=
  if (ds.all fun d => d.value.isTruthy = all) then all else !all

theorem verdict_true (ds : List Item) : verdict true ds = ds.all fun d => d.value.isTruthy := by
  simp only [verdict, Bool.decide_eq_true]
  cases ds.all fun d => d.value.isTruthy <;> rfl

theorem verdict_false (ds : List Item) : verdict false ds = ds.any fun d => d.value.isTruthy := by
  simp only [verdict, Bool.decide_eq_false, List.any_eq_not_all_not]
  cases ds.all fun d => !d.value.isTruthy <;> rfl

/-- Two or more arguments go through the loop. -/
theorem fold_of_two_le (all : Bool) {call : Call} (h : 2 ≤ call.args.length) : fold all call =
    ⟨.ofValue (.bool (verdict all call.args)), (examined all call.args).flatMap Item.faults⟩ := by
  have hloop : fold all call =
      (do return truthItem (some (if ← allAgree all call.args then all else !all))) := by
    obtain ⟨name, p, args⟩ := call
    match args, h with
    | _ :: _ :: _, _ => rfl
  rw [hloop, allAgree_eq]
  show Noted.mk _ (_ ++ []) = _
  rw [List.append_nil]
  rfl

/-- Arguments that all have a truth give one, without a report. -/
theorem fold_of_convertible (all : Bool) (call : Call) (hne : call.args ≠ [])
    (h : ∀ d ∈ call.args, d.value.isConvertible = true) :
    fold all call = pure (.ofValue (.bool (verdict all call.args))) := by
  obtain ⟨name, p, args⟩ := call
  match args, hne with
  | [single], _ =>
    rw [List.forall_mem_singleton] at h
    have hsingle : fold all ⟨name, p, [single]⟩ = (do return truthItem (← single.value.truth)) :=
      rfl
    rw [hsingle, Item.truth_of_convertible h, pure_bind]
    cases hd : single.value.isTruthy <;> cases all <;> simp [verdict, truthItem, hd]
  | a :: b :: rest, _ =>
    have hquiet : (examined all (a :: b :: rest)).flatMap Item.faults = [] := by
      rw [List.flatMap_eq_nil_iff]
      intro d hd
      have hmem : d ∈ a :: b :: rest := by
        rcases List.mem_append.mp hd with hd | hd
        · exact (List.takeWhile_sublist _).subset hd
        · exact List.mem_of_find?_eq_some (Option.mem_toList.mp hd)
      exact if_pos (h d hmem)
    rw [fold_of_two_le all (by simp), hquiet]
    rfl

theorem andHandler_of_two_le {call : Call} (h : 2 ≤ call.args.length) : andHandler call =
    ⟨.ofValue (.bool (call.args.all fun d => d.value.isTruthy)),
      (call.args.find? fun d => !d.value.isTruthy).toList.flatMap Item.faults⟩ := by
  -- what comes before the argument that stops the loop is true
  have hbefore : (call.args.takeWhile fun d => d.value.isTruthy = true).flatMap Item.faults =
      [] := by
    rw [List.flatMap_eq_nil_iff]
    intro d hd
    have htrue := List.mem_takeWhile_imp (p := fun d : Item => decide (d.value.isTruthy = true)) hd
    exact Item.faults_of_isTruthy (of_decide_eq_true htrue)
  have hlast : (fun d : Item => decide (d.value.isTruthy ≠ true)) = fun d => !d.value.isTruthy := by
    funext d
    cases d.value.isTruthy <;> rfl
  rw [andHandler, fold_of_two_le true h, verdict_true, examined, List.flatMap_append, hbefore,
    List.nil_append, hlast]

theorem orHandler_of_two_le {call : Call} (h : 2 ≤ call.args.length) : orHandler call =
    ⟨.ofValue (.bool (call.args.any fun d => d.value.isTruthy)),
      (call.args.takeWhile fun d => !d.value.isTruthy).flatMap Item.faults⟩ := by
  have hbefore : (fun d : Item => decide (d.value.isTruthy = false)) =
      fun d => !d.value.isTruthy := by
    funext d
    cases d.value.isTruthy <;> rfl
  -- the argument that stops the loop is true
  have hlast : (call.args.find? fun d => d.value.isTruthy ≠ false).toList.flatMap Item.faults =
      [] := by
    rw [List.flatMap_eq_nil_iff]
    intro d hd
    have htrue := List.find?_some (Option.mem_toList.mp hd)
    exact Item.faults_of_isTruthy (by simpa using htrue)
  rw [orHandler, fold_of_two_le false h, verdict_false, examined, List.flatMap_append, hlast,
    List.append_nil, hbefore]

/-! ## De Morgan's laws -/

/-- A single argument that has a truth is negated. -/
theorem notHandler_of_convertible (call : Call) {x : Item} (h : x.value.isConvertible = true) :
    notHandler { call with args := [x] } = pure (.ofValue (.bool !x.value.isTruthy)) := by
  have hnegate : notHandler { call with args := [x] } =
      (do return truthItem ((← x.value.truth).map (!·))) := rfl
  rw [hnegate, Item.truth_of_convertible h, pure_bind]
  rfl

/-- Arguments that all have a truth are negated one by one. -/
theorem mapM_notHandler (call : Call) {xs : List Item}
    (h : ∀ x ∈ xs, x.value.isConvertible = true) :
    (xs.mapM fun x => notHandler { call with args := [x] }) =
      pure (xs.map fun x => .ofValue (.bool !x.value.isTruthy)) := by
  induction xs with
  | nil => rfl
  | cons x rest ih =>
    rw [List.forall_mem_cons] at h
    rw [List.mapM_cons, notHandler_of_convertible call h.1, ih h.2]
    rfl

/-- One law for both operators: what is looked for is negated with the arguments. -/
theorem verdict_not (all : Bool) (xs : List Item) :
    verdict (!all) (xs.map fun x => .ofValue (.bool !x.value.isTruthy)) = !verdict all xs := by
  have htruthy : ∀ x : Item, (Item.ofValue (.bool !x.value.isTruthy)).value.isTruthy =
      !x.value.isTruthy := fun _ => rfl
  simp only [verdict, List.all_map, Function.comp_def, htruthy, Bool.not_inj_iff]
  split <;> rfl

/-- The negation of what an operator gives is what the other gives for the negations. -/
theorem notHandler_fold (all : Bool) (call : Call) {xs : List Item} (hne : xs ≠ [])
    (h : ∀ x ∈ xs, x.value.isConvertible = true) :
    (do notHandler { call with args := [← fold all { call with args := xs }] }) =
      (pure (.ofValue (.bool !verdict all xs)) : Noted Report Item) ∧
    (do fold (!all) { call with
        args := ← xs.mapM fun x => notHandler { call with args := [x] } }) =
      (pure (.ofValue (.bool !verdict all xs)) : Noted Report Item) := by
  constructor
  · rw [fold_of_convertible all { call with args := xs } hne h, pure_bind,
      notHandler_of_convertible call rfl]
    rfl
  · rw [mapM_notHandler call h, pure_bind, fold_of_convertible (!all) { call with args := _ }]
    · dsimp only
      rw [verdict_not]
    · simpa using hne
    · dsimp only
      rw [List.forall_mem_map]
      exact fun _ _ => rfl

/-- **Conditions.** Of two or more arguments, `and` is true if all are true, and what it reports is
the fault of the first that is not, if that one has no truth. `or` is true if one argument is true,
and it reports the faults of those before the first that is. If all arguments have a truth, however
many there are, then nothing is reported and De Morgan's laws hold. -/
theorem conditions_decided (call : Call) :
    (2 ≤ call.args.length →
      andHandler call =
        ⟨.ofValue (.bool (call.args.all fun d => d.value.isTruthy)),
          (call.args.find? fun d => !d.value.isTruthy).toList.flatMap Item.faults⟩ ∧
      orHandler call =
        ⟨.ofValue (.bool (call.args.any fun d => d.value.isTruthy)),
          (call.args.takeWhile fun d => !d.value.isTruthy).flatMap Item.faults⟩) ∧
    ∀ xs : List Item, xs ≠ [] → (∀ x ∈ xs, x.value.isConvertible = true) →
      let ofAnd : Noted Report Item := do
        notHandler { call with args := [← andHandler { call with args := xs }] }
      let ofOr : Noted Report Item := do
        notHandler { call with args := [← orHandler { call with args := xs }] }
      let negations : Noted Report (List Item) :=
        xs.mapM fun x => notHandler { call with args := [x] }
      ofAnd = (do orHandler { call with args := ← negations }) ∧ ofAnd.notes = [] ∧
        ofOr = (do andHandler { call with args := ← negations }) ∧ ofOr.notes = [] := by
  refine ⟨fun h => ⟨andHandler_of_two_le h, orHandler_of_two_le h⟩, ?_⟩
  intro xs hne hconvertible ofAnd ofOr negations
  obtain ⟨hand, hor⟩ := notHandler_fold true call hne hconvertible
  obtain ⟨hor', hand'⟩ := notHandler_fold false call hne hconvertible
  refine ⟨hand.trans hor.symm, ?_, hor'.trans hand'.symm, ?_⟩
  · exact congrArg Noted.notes hand
  · exact congrArg Noted.notes hor'

/-- A text has no truth: it stops `and` with a report, and `or` goes on after one. Numbers have a
truth, so the laws hold for them. -/
theorem conditions_decided_mixed :
    let call : Call := ⟨"or", .start,
      [.ofValue (.string "x"), .ofValue (.integer 0), .ofValue (.bool true), .ofValue .null]⟩
    let xs : List Item := [.ofValue (.integer 2), .ofValue (.float (.zero true))]
    2 ≤ call.args.length ∧
    andHandler call = ⟨.ofValue (.bool false), [.error "cannot convert 'String' to 'Bool'"]⟩ ∧
    orHandler call = ⟨.ofValue (.bool true), [.error "cannot convert 'String' to 'Bool'"]⟩ ∧
    xs ≠ [] ∧ (∀ x ∈ xs, x.value.isConvertible = true) ∧
    (do notHandler { call with args := [← andHandler { call with args := xs }] } :
      Noted Report Item) =
      (do orHandler { call with
        args := ← xs.mapM fun x => notHandler { call with args := [x] } }) := by
  intro call xs
  have hlength : 2 ≤ call.args.length := by decide
  have hxs : xs ≠ [] := List.cons_ne_nil _ _
  have hconvertible : ∀ x ∈ xs, x.value.isConvertible = true := by decide
  obtain ⟨hboth, hlaws⟩ := conditions_decided call
  obtain ⟨hand, hor⟩ := hboth hlength
  exact ⟨hlength, hand, hor, hxs, hconvertible, (hlaws xs hxs hconvertible).1⟩

end Expression

end DataLisp
