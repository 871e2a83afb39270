/-
Unions of unions.

A union adds what its arguments contribute, in order, to a group without an id of its own. When an
argument is a union itself, its entries have been through such a group before: a key that came
again has had its value replaced there, and the named entries have moved before the anonymous ones.
Nothing of this is seen from outside. Named and anonymous entries never meet
(`union_of_two_le`), and to insert a map that pairs have built is to insert the pairs
(`insertAll_ofList`), so the inner union can be replaced by its arguments (`union_append`). Unions
of no arguments are left out, as they are null and not a group, and a union of a single argument is
that argument, whatever it is.

By induction, unions nested in any way come to the union of the arguments at the leaves
(`Nesting.value_eq`).

The other way round, a union is split into its named entries and its anonymous ones. Each part is
added to a new group, which changes neither, as the keys of a union are distinct
(`nodup_keys_union`), and as the two parts never meet, their union is the whole again
(`union_parts`).
-/
import DataLisp.Expression.Standard
import DataLisp.Proofs.Documents

set_option autoImplicit false

namespace DataLisp.Expression

open OrderedMap

/-! ## What arguments contribute -/

/-- What an argument adds to the named entries of a union: those of a group, and anything else
under its own key. The key of a group is passed over. -/
def namedPart (d : Item) : List (String × Value) :=
  match d.value with
  | .group g => g.named
  | _ => d.pair?.toList

/-- What it adds to the anonymous entries. -/
def anonymousPart (d : Item) : List Value :=
  match d.value with
  | .group g => g.anonymous
  | _ => d.free?.toList

theorem filterMap_contribution (d : Item) :
    (contribution d).filterMap Item.pair? = namedPart d ∧
      (contribution d).filterMap Item.free? = anonymousPart d := by
  obtain ⟨key, v⟩ := d
  cases v with
  | group g => exact g.filterMap_entries
  | null | string _ | integer _ | float _ | bool _ | array _ => cases key <;> exact ⟨rfl, rfl⟩

/-- **The union of two or more arguments**, with its entries. -/
theorem union_of_two_le {args : List Item} (h : 2 ≤ args.length) :
    union args = .ofValue (.group ⟨Group.unknownId, ofList (args.flatMap namedPart),
      args.flatMap anonymousPart⟩) := by
  have hunion : union args =
      .ofValue (.group (Group.unknown.addAll (args.flatMap contribution))) := by
    match args, h with
    | _ :: _ :: _, _ => rfl
  have hnamed : (args.flatMap contribution).filterMap Item.pair? = args.flatMap namedPart := by
    rw [List.filterMap_flatMap]
    exact congrArg (args.flatMap ·) (funext fun d => (filterMap_contribution d).1)
  have hanonymous :
      (args.flatMap contribution).filterMap Item.free? = args.flatMap anonymousPart := by
    rw [List.filterMap_flatMap]
    exact congrArg (args.flatMap ·) (funext fun d => (filterMap_contribution d).2)
  rw [hunion, Group.addAll_eq, hnamed, hanonymous]
  rfl

/-! ## A union among the arguments -/

/-- **A union among the arguments of a union** can be replaced by its own arguments. -/
theorem union_append (ws ys : List Item) {xs : List Item} (hxs : xs ≠ []) :
    union (ws ++ [union xs] ++ ys) = union (ws ++ xs ++ ys) := by
  match xs, hxs with
  | [_], _ => rfl
  | a :: b :: rest, _ =>
    by_cases halone : ws = [] ∧ ys = []
    -- a single argument again, which is the inner union
    · obtain ⟨rfl, rfl⟩ := halone
      rw [List.nil_append, List.nil_append, List.append_nil, List.append_nil]
      rfl
    · have hinner : 2 ≤ (a :: b :: rest).length := by simp
      have hothers : 1 ≤ ws.length + ys.length := by
        rw [← List.length_append, Nat.one_le_iff_ne_zero, ne_eq, List.length_eq_zero_iff,
          List.append_eq_nil_iff]
        exact halone
      have houter : 2 ≤ (ws ++ [union (a :: b :: rest)] ++ ys).length := by
        simp only [List.length_append, List.length_singleton]
        omega
      have hflat : 2 ≤ (ws ++ (a :: b :: rest) ++ ys).length := by
        simp only [List.length_append, List.length_cons]
        omega
      have hnamed : namedPart (union (a :: b :: rest)) =
          ofList ((a :: b :: rest).flatMap namedPart) := by
        rw [union_of_two_le hinner]
        rfl
      have hanonymous : anonymousPart (union (a :: b :: rest)) =
          (a :: b :: rest).flatMap anonymousPart := by
        rw [union_of_two_le hinner]
        rfl
      rw [union_of_two_le houter, union_of_two_le hflat]
      simp only [List.flatMap_append, List.flatMap_singleton]
      rw [hnamed, hanonymous, ofList_append_ofList]

/-! ## Unions nested in any way -/

/-- Unions inside each other: an argument, or the union of some of these, at least one. -/
inductive Nesting where
  | argument (d : Item)
  | union (first : Nesting) (more : List Nesting)

mutual

/-- What a nesting comes to, from the inside out. -/
def Nesting.value : Nesting → Item
  | .argument d => d
  | .union first more => Expression.union (first.value :: Nestings.values more)

/-- The same for each of a row. -/
def Nestings.values : List Nesting → List Item
  | [] => []
  | nesting :: rest => nesting.value :: Nestings.values rest

end

mutual

/-- The arguments at the leaves, in order. -/
def Nesting.leaves : Nesting → List Item
  | .argument d => [d]
  | .union first more => first.leaves ++ Nestings.leaves more

/-- The same for a row. -/
def Nestings.leaves : List Nesting → List Item
  | [] => []
  | nesting :: rest => nesting.leaves ++ Nestings.leaves rest

end

/-- Induction over a nesting: what a union takes comes first. -/
@[elab_as_elim]
theorem Nesting.induction {motive : Nesting → Prop} (argument : ∀ d, motive (.argument d))
    (union : ∀ first more, (∀ nesting ∈ first :: more, motive nesting) →
      motive (.union first more)) (nesting : Nesting) : motive nesting :=
  @Nesting.rec motive (fun nestings => ∀ nesting ∈ nestings, motive nesting) argument
    (fun first more hfirst hmore => union first more (List.forall_mem_cons.mpr ⟨hfirst, hmore⟩))
    (by simp) (fun _ _ hfirst hrest => List.forall_mem_cons.mpr ⟨hfirst, hrest⟩) nesting

theorem Nesting.leaves_ne_nil (nesting : Nesting) : nesting.leaves ≠ [] := by
  induction nesting using Nesting.induction with
  | argument d => exact List.cons_ne_nil d []
  | union first more ih =>
    exact List.append_ne_nil_of_left_ne_nil (ih first List.mem_cons_self) _

/-- Unions in a row of arguments can be replaced by their leaves, one after the other. -/
theorem Nestings.union_values {nestings : List Nesting}
    (h : ∀ nesting ∈ nestings, nesting.value = Expression.union nesting.leaves) (ws : List Item) :
    Expression.union (ws ++ values nestings) = Expression.union (ws ++ leaves nestings) := by
  induction nestings generalizing ws with
  | nil => rfl
  | cons nesting rest ih =>
    rw [List.forall_mem_cons] at h
    rw [values, leaves, h.1, List.append_cons, union_append ws _ nesting.leaves_ne_nil, ih h.2,
      List.append_assoc]

/-- **A nesting comes to the union of its leaves.** -/
theorem Nesting.value_eq (nesting : Nesting) : nesting.value = Expression.union nesting.leaves := by
  induction nesting using Nesting.induction with
  | argument d => rfl
  | union first more ih => exact Nestings.union_values ih []

/-- **Unions are flat.** A union among the arguments of a union can be replaced by its own
arguments, if it has any, so the order in which unions are taken does not matter. Unions nested in
any way come to the union of the arguments at their leaves. For two or more of these that is a
group without an id of its own. The keys of its named entries are those that the arguments
contribute, in the order in which they first come, each with the value that comes last, and its
anonymous entries are those of the arguments one after the other. -/
theorem union_flattens (call : Call) (ws ys : List Item) {xs : List Item} (hxs : xs ≠ []) :
    unionHandler { call with
        args := ws ++ [(unionHandler { call with args := xs }).value] ++ ys } =
      unionHandler { call with args := ws ++ xs ++ ys } ∧
    (∀ a b c : Item, union [union [a, b], c] = union [a, union [b, c]]) ∧
    ∀ nesting : Nesting, nesting.value = union nesting.leaves ∧
      (2 ≤ nesting.leaves.length → ∃ named,
        nesting.value = .ofValue (.group ⟨Group.unknownId, named,
          nesting.leaves.flatMap anonymousPart⟩) ∧
        keys named = (keys (nesting.leaves.flatMap namedPart)).eraseDups ∧
        ∀ entry ∈ named, ∃ before after,
          nesting.leaves.flatMap namedPart = before ++ entry :: after ∧
          entry.1 ∉ keys after) := by
  refine ⟨congrArg pure (union_append ws ys hxs), ?_, ?_⟩
  · intro a b c
    have hleft : union [union [a, b], c] = union [a, b, c] :=
      union_append [] [c] (List.cons_ne_nil a [b])
    have hright : union [a, union [b, c]] = union [a, b, c] :=
      union_append [a] [] (List.cons_ne_nil b [c])
    exact hleft.trans hright.symm
  · intro nesting
    refine ⟨nesting.value_eq, ?_⟩
    intro hleaves
    refine ⟨ofList (nesting.leaves.flatMap namedPart), ?_, keys_ofList _, ?_⟩
    · exact nesting.value_eq.trans (union_of_two_le hleaves)
    · exact fun entry => last_of_mem_ofList

/-- Keyed values in an inner union: the first replaces what a group before it has under its key,
and the second is replaced by what comes after it. -/
theorem union_flattens_keyed :
    [Item.keyed "a" (.integer 2), .keyed "b" .null] ≠ [] ∧
    (unionHandler ⟨"union", .start,
      [.keyed "g" (.group ⟨"point", [("a", .integer 1)], [.bool true]⟩)] ++
      [(unionHandler ⟨"union", .start, [.keyed "a" (.integer 2), .keyed "b" .null]⟩).value] ++
      [.keyed "b" (.integer 3), .ofValue .null]⟩).value =
    .ofValue (.group ⟨Group.unknownId, [("a", .integer 2), ("b", .integer 3)],
      [.bool true, .null]⟩) ∧
    ∃ named, (Nesting.union (.argument (.ofValue (.bool true)))
        [.union (.argument (.keyed "a" (.integer 2))) [.argument (.keyed "b" .null)],
          .argument (.keyed "a" (.integer 3))]).value =
      .ofValue (.group ⟨Group.unknownId, named, [.bool true]⟩) ∧ keys named = ["a", "b"] := by
  have hxs : [Item.keyed "a" (.integer 2), .keyed "b" .null] ≠ [] := List.cons_ne_nil _ _
  obtain ⟨hflat, -, hnestings⟩ := union_flattens ⟨"union", .start, []⟩
    [.keyed "g" (.group ⟨"point", [("a", .integer 1)], [.bool true]⟩)]
    [.keyed "b" (.integer 3), .ofValue .null] hxs
  obtain ⟨-, hresult⟩ := hnestings (.union (.argument (.ofValue (.bool true)))
    [.union (.argument (.keyed "a" (.integer 2))) [.argument (.keyed "b" .null)],
      .argument (.keyed "a" (.integer 3))])
  obtain ⟨named, hvalue, hkeys, -⟩ := hresult (by decide)
  exact ⟨hxs, congrArg Noted.value hflat, named, hvalue, hkeys⟩

/-! ## A union in two parts -/

/-- The named entries of a group, added to a group without any. -/
theorem addAll_namedItems (g : Group) :
    Group.unknown.addAll g.namedItems = ⟨Group.unknownId, ofList g.named, []⟩ := by
  obtain ⟨hnamed, hnone⟩ := Item.filterMap_ofEntry g.named
  rw [Group.addAll_eq, Group.namedItems, hnamed, hnone]
  rfl

/-- The anonymous ones. -/
theorem addAll_anonymousItems (g : Group) :
    Group.unknown.addAll g.anonymousItems = ⟨Group.unknownId, [], g.anonymous⟩ := by
  obtain ⟨hnone, hanonymous⟩ := Item.filterMap_ofValue g.anonymous
  rw [Group.addAll_eq, Group.anonymousItems, hnone, hanonymous]
  rfl

section Parts

variable {call : Call} {g : Group}

theorem namedHandler_of_nil (h : (union call.args).value = .group g) (hnamed : g.named = []) :
    namedHandler call = pure nullItem := by
  rw [namedHandler, h]
  dsimp only
  rw [hnamed]
  rfl

theorem namedHandler_of_ne_nil (h : (union call.args).value = .group g) (hnamed : g.named ≠ []) :
    namedHandler call = pure (.ofValue (.group ⟨Group.unknownId, ofList g.named, []⟩)) := by
  have hempty : ¬g.named.isEmpty = true := by rwa [List.isEmpty_iff]
  rw [namedHandler, h]
  dsimp only
  rw [if_neg hempty, addAll_namedItems]

theorem anonymousHandler_of_group (h : (union call.args).value = .group g) :
    anonymousHandler call =
      pure (.ofValue (.group ⟨Group.unknownId, [], g.anonymous⟩)) := by
  rw [anonymousHandler, h]
  dsimp only
  rw [addAll_anonymousItems]

/-- Where the union is no group, there are no named entries, and it is passed on. -/
theorem handlers_of_not_group (h : ∀ g, (union call.args).value ≠ .group g) :
    namedHandler call = pure nullItem ∧ anonymousHandler call = pure (union call.args) := by
  rw [namedHandler, anonymousHandler]
  constructor
  · split
    · rename_i g hg
      exact absurd hg (h g)
    · rfl
  · split
    · rename_i g hg
      exact absurd hg (h g)
    · rfl

end Parts

/-- Whatever the keys of a union come from, they are distinct: what several arguments contribute is
inserted anew, and a single argument is left as it is. -/
theorem nodup_keys_union {args : List Item}
    (hargs : ∀ d ∈ args, ∀ h : Group, d.value = .group h → (keys h.named).Nodup) {g : Group}
    (h : (union args).value = .group g) : (keys g.named).Nodup := by
  match args, hargs, h with
  | [], _, h => cases h
  | [single], hargs, h => exact hargs single (List.mem_singleton_self single) g h
  | _ :: _ :: _, _, h =>
    rw [union_of_two_le (by simp)] at h
    cases h
    exact nodup_keys_ofList _

/-- The two parts of a group make its entries again. -/
theorem union_parts {id id' : String} {named : List (String × Value)} {anonymous : List Value}
    (h : (keys named).Nodup) :
    union [.ofValue (.group ⟨id, named, []⟩), .ofValue (.group ⟨id', [], anonymous⟩)] =
      .ofValue (.group ⟨Group.unknownId, named, anonymous⟩) := by
  rw [union_of_two_le (by simp)]
  simp [namedPart, anonymousPart, Item.ofValue, ofList_of_nodup h]

/-- The named entries of named entries are these again, and null has none. -/
theorem namedHandler_twice (call : Call) :
    namedHandler { call with args := [(namedHandler call).value] } = namedHandler call := by
  have hnull : namedHandler { call with args := [nullItem] } = pure nullItem := rfl
  by_cases hgroup : ∃ g, (union call.args).value = .group g
  · obtain ⟨g, hg⟩ := hgroup
    by_cases hnamed : g.named = []
    · rw [namedHandler_of_nil hg hnamed, Noted.value_pure, hnull]
    · have hagain : ofList g.named ≠ [] := by rwa [ne_eq, ofList_eq_nil_iff]
      rw [namedHandler_of_ne_nil hg hnamed, Noted.value_pure, namedHandler_of_ne_nil rfl hagain]
      dsimp only
      rw [ofList_of_nodup (nodup_keys_ofList g.named)]
  · rw [(handlers_of_not_group (not_exists.mp hgroup)).1, Noted.value_pure, hnull]

/-- What is passed on is passed on again. -/
theorem anonymousHandler_twice (call : Call) :
    anonymousHandler { call with args := [(anonymousHandler call).value] } =
      anonymousHandler call := by
  by_cases hgroup : ∃ g, (union call.args).value = .group g
  · obtain ⟨g, hg⟩ := hgroup
    rw [anonymousHandler_of_group hg, Noted.value_pure, anonymousHandler_of_group rfl]
  · have hpassed := (handlers_of_not_group (not_exists.mp hgroup)).2
    rw [hpassed, Noted.value_pure]
    exact (handlers_of_not_group (not_exists.mp hgroup)).2

/-- **A union splits** into its named and its anonymous entries. If the union of the arguments is a
group, its anonymous entries are a group of their own, and so are its named ones if it has any; for
none there is null. The union of these two has the entries of the whole. That the keys of a group
are distinct is what the operations see to. The entries are in a new group without an id of its
own, so taking a part of a part changes nothing, whatever the arguments are. -/
theorem union_splits (call : Call) :
    (∀ g : Group, (union call.args).value = .group g →
      (∀ d ∈ call.args, ∀ h : Group, d.value = .group h → (keys h.named).Nodup) →
      anonymousHandler call = pure (.ofValue (.group ⟨Group.unknownId, [], g.anonymous⟩)) ∧
      (namedHandler call = pure nullItem ↔ g.named = []) ∧
      (g.named ≠ [] →
        namedHandler call = pure (.ofValue (.group ⟨Group.unknownId, g.named, []⟩)) ∧
        unionHandler { call with
            args := [(namedHandler call).value, (anonymousHandler call).value] } =
          pure (.ofValue (.group ⟨Group.unknownId, g.named, g.anonymous⟩)))) ∧
    namedHandler { call with args := [(namedHandler call).value] } = namedHandler call ∧
    anonymousHandler { call with args := [(anonymousHandler call).value] } =
      anonymousHandler call := by
  refine ⟨?_, namedHandler_twice call, anonymousHandler_twice call⟩
  intro g hg hargs
  have hkeys : (keys g.named).Nodup := nodup_keys_union hargs hg
  have hnamed : g.named ≠ [] →
      namedHandler call = pure (.ofValue (.group ⟨Group.unknownId, g.named, []⟩)) := by
    intro hne
    rw [namedHandler_of_ne_nil hg hne, ofList_of_nodup hkeys]
  refine ⟨anonymousHandler_of_group hg, ⟨?_, namedHandler_of_nil hg⟩, fun hne => ⟨hnamed hne, ?_⟩⟩
  · intro hnull
    by_contra hne
    rw [hnamed hne] at hnull
    cases hnull
  · rw [hnamed hne, anonymousHandler_of_group hg]
    exact congrArg pure (union_parts hkeys)

/-- A keyed value that replaces what a group has under its key, and one without a key. -/
theorem union_splits_merged :
    let call : Call := ⟨"union", .start,
      [.keyed "g" (.group ⟨"point", [("a", .integer 1)], [.bool true]⟩), .keyed "a" (.integer 2),
        .ofValue .null]⟩
    (union call.args).value =
      .group ⟨Group.unknownId, [("a", .integer 2)], [.bool true, .null]⟩ ∧
    (∀ d ∈ call.args, ∀ h : Group, d.value = .group h → (keys h.named).Nodup) ∧
    namedHandler call =
      pure (.ofValue (.group ⟨Group.unknownId, [("a", .integer 2)], []⟩)) ∧
    anonymousHandler call =
      pure (.ofValue (.group ⟨Group.unknownId, [], [.bool true, .null]⟩)) := by
  intro call
  have hunion : (union call.args).value =
      .group ⟨Group.unknownId, [("a", .integer 2)], [.bool true, .null]⟩ := rfl
  have hargs : ∀ d ∈ call.args, ∀ h : Group, d.value = .group h → (keys h.named).Nodup := by
    simp [call, Item.keyed, Item.ofValue, keys]
  obtain ⟨hsplit, -, -⟩ := union_splits call
  obtain ⟨hanonymous, -, hnamed⟩ := hsplit _ hunion hargs
  exact ⟨hunion, hargs, (hnamed (List.cons_ne_nil _ _)).1, hanonymous⟩

end DataLisp.Expression
