/-
What is loaded from a snapshot.

A snapshot says of each group which entries are named and which are not, but loading takes no
notice of that: it starts a group without entries under the given id and adds all entries to it,
as any user of the operations would. So whatever a text says, each group that is loaded, at any
depth, is one that additions have built (`rebuilt_ofSnapshot?`).
-/
import DataLisp.Proofs.Documents
import DataLisp.Proofs.JsonText
import DataLisp.Snapshot

set_option autoImplicit false

namespace DataLisp

/-- Whether a single value is no group, or a group that is built from nothing by additions. -/
def Value.Rebuilt : Value → Prop
  | .group g => ∃ id items, g = (Group.ofId id).addAll items
  | .null | .string _ | .integer _ | .float _ | .bool _ | .array _ => True

/-- One more addition leaves a group built by additions. -/
theorem Value.kept_rebuilt : Kept Rebuilt where
  null := trivial
  bool _ := trivial
  ofId id := ⟨id, [], rfl⟩
  add g d h := by
    obtain ⟨id, items, rfl⟩ := h
    exact ⟨id, items ++ [d], (List.foldl_concat ..).symm⟩
  array _ _ := trivial

namespace Snapshot

open Json (Node)

/-! ## What a snapshot is loaded from -/

/-- A value that is loaded is a scalar, or a group or an array from a level below. -/
theorem value?_cases {levels : Nat} {node : Node} {v : Value} (h : value? levels node = some v) :
    (∃ kind inner, scalar? kind inner = some v) ∨
      ∃ below inner, levels = below + 1 ∧
        ((∃ g, v = .group g ∧ group? below inner = some g) ∨
          ∃ items, v = .array items ∧ array? below inner = some items) := by
  unfold value? at h
  split at h
  · -- the name of null stands for it
    simp only [Option.bind_eq_bind, Option.bind_eq_some_iff, Option.ite_none_right_eq_some] at h
    obtain ⟨_, -, -, hv⟩ := h
    exact .inl ⟨.null, .null, hv⟩
  · rename_i below parts inner
    simp only [Option.bind_eq_bind, Option.bind_eq_some_iff] at h
    obtain ⟨_, -, kind, -, h⟩ := h
    split at h
    · simp only [Option.bind_eq_some_iff, Option.pure_def, Option.some.injEq] at h
      obtain ⟨g, hg, rfl⟩ := h
      exact .inr ⟨below, inner, rfl, .inl ⟨g, rfl, hg⟩⟩
    · simp only [Option.bind_eq_some_iff, Option.pure_def, Option.some.injEq] at h
      obtain ⟨items, hitems, rfl⟩ := h
      exact .inr ⟨below, inner, rfl, .inr ⟨items, rfl, hitems⟩⟩
    · exact .inl ⟨kind, inner, h⟩
  · cases h

/-- An array is loaded from the list inside its object, a level below. -/
theorem array?_eq_some {levels : Nat} {node : Node} {items : List Item}
    (h : array? levels node = some items) :
    ∃ below inner, levels = below + 1 ∧ list? below inner = some items := by
  cases levels with
  | zero => cases h
  | succ below =>
    simp only [array?, Option.bind_eq_bind, Option.bind_eq_some_iff] at h
    obtain ⟨fields, -, h⟩ := h
    split at h
    · exact ⟨below, _, rfl, h⟩
    · cases h

/-- A group that is loaded is filled by adding one list of items after the other. -/
theorem group?_eq_some {levels : Nat} {node : Node} {g : Group} (h : group? levels node = some g) :
    ∃ below id named anonymous inner inner', levels = below + 1 ∧
      list? below inner = some named ∧ list? below inner' = some anonymous ∧
      g = (Group.ofId id).addAll (named ++ anonymous) := by
  cases levels with
  | zero => cases h
  | succ below =>
    simp only [group?, Option.bind_eq_bind, Option.bind_eq_some_iff] at h
    obtain ⟨fields, -, h⟩ := h
    split at h
    · simp only [Option.bind_eq_some_iff, Option.pure_def, Option.some.injEq] at h
      obtain ⟨id, -, named, hnamed, anonymous, hanonymous, rfl⟩ := h
      exact ⟨below, id, named, anonymous, _, _, rfl, hnamed, hanonymous, rfl⟩
    · cases h

theorem list?_eq_some {levels : Nat} {node : Node} {items : List Item}
    (h : list? levels node = some items) :
    ∃ (below : Nat) (nodes : List Node), levels = below + 1 ∧
      nodes.mapM (item? below) = some items := by
  unfold list? at h
  split at h
  · exact ⟨_, _, rfl, h⟩
  · cases h

theorem item?_eq_some {levels : Nat} {node : Node} {d : Item} (h : item? levels node = some d) :
    ∃ below inner, levels = below + 1 ∧ value? below inner = some d.value := by
  cases levels with
  | zero => cases h
  | succ below =>
    simp only [item?, Option.bind_eq_bind, Option.bind_eq_some_iff] at h
    obtain ⟨fields, -, h⟩ := h
    split at h
    · simp only [Option.bind_eq_some_iff, Option.pure_def, Option.some.injEq] at h
      obtain ⟨key, -, v, hv, rfl⟩ := h
      exact ⟨below, _, rfl, hv⟩
    · cases h

/-! ## Every group is built by additions -/

/-- No scalar holds a group. -/
theorem rebuilt_scalar {kind : Kind} {node : Node} {v : Value} (h : scalar? kind node = some v) :
    ∀ w ∈ v.values, w.Rebuilt := by
  unfold scalar? at h
  split at h
  case h_1 | h_5 =>
    cases h
    simp [Value.values, Value.Rebuilt]
  case h_2 | h_3 | h_4 =>
    obtain ⟨_, -, rfl⟩ := Option.map_eq_some_iff.mp h
    simp [Value.values, Value.Rebuilt]
  case h_6 => cases h

/-- Of all that is loaded with the given number of levels, every group is built by additions. -/
structure Rebuilds (levels : Nat) : Prop where
  value : ∀ node v, value? levels node = some v → ∀ w ∈ v.values, w.Rebuilt
  array : ∀ node items, array? levels node = some items →
    ∀ d ∈ items, ∀ w ∈ d.value.values, w.Rebuilt
  group : ∀ node g, group? levels node = some g → ∀ w ∈ (Value.group g).values, w.Rebuilt
  list : ∀ node items, list? levels node = some items →
    ∀ d ∈ items, ∀ w ∈ d.value.values, w.Rebuilt
  item : ∀ node d, item? levels node = some d → ∀ w ∈ d.value.values, w.Rebuilt

/-- **Whatever is loaded is built by additions.** The induction is on the levels. -/
theorem rebuilds (levels : Nat) : Rebuilds levels := by
  -- every structure is loaded from others with fewer levels
  induction levels using Nat.strongRecOn with
  | ind levels ih =>
    constructor
    case value =>
      intro node v h
      rcases value?_cases h with ⟨kind, inner, hscalar⟩ |
        ⟨below, inner, rfl, ⟨g, rfl, hg⟩ | ⟨items, rfl, hitems⟩⟩
      · exact rebuilt_scalar hscalar
      · exact (ih below (Nat.lt_succ_self below)).group inner g hg
      · have hvalues := (ih below (Nat.lt_succ_self below)).array inner items hitems
        exact forall_values_array.mpr ⟨trivial, hvalues⟩
    case array =>
      intro node items h
      obtain ⟨below, inner, rfl, hitems⟩ := array?_eq_some h
      exact (ih below (Nat.lt_succ_self below)).list inner items hitems
    case group =>
      intro node g h
      obtain ⟨below, id, named, anonymous, inner, inner', rfl, hnamed, hanonymous, rfl⟩ :=
        group?_eq_some h
      -- named or not, all items go through the same additions
      have hlist := (ih below (Nat.lt_succ_self below)).list
      exact Value.kept_rebuilt.forall_addAll (Value.kept_rebuilt.forall_ofId id)
        (List.forall_mem_append.mpr
          ⟨hlist inner named hnamed, hlist inner' anonymous hanonymous⟩)
    case list =>
      intro node items h
      obtain ⟨below, nodes, rfl, hitems⟩ := list?_eq_some h
      exact forall_mapM (fun node _ => (ih below (Nat.lt_succ_self below)).item node) hitems
    case item =>
      intro node d h
      obtain ⟨below, inner, rfl, hvalue⟩ := item?_eq_some h
      exact (ih below (Nat.lt_succ_self below)).value inner d.value hvalue

/-- The top-level groups are loaded like any others. -/
theorem rebuilt_document? {levels : Nat} {node : Node} {doc : Document}
    (h : document? levels node = some doc) : ∀ w ∈ doc.values, w.Rebuilt := by
  cases levels with
  | zero => cases h
  | succ levels =>
    -- the fields of an object or an array make no difference from here on
    simp only [document?, Option.bind_eq_bind, Option.bind_eq_some_iff] at h
    obtain ⟨fields, -, h⟩ := h
    split at h
    · unfold groups? at h
      split at h
      · exact forall_values_document.mpr (forall_mapM (fun node _ => (rebuilds _).group node) h)
      · cases h
    · cases h

end Snapshot

/-- **Every group in what a snapshot is loaded as is built by additions**, at any depth and
whatever the text says. -/
theorem Document.rebuilt_ofSnapshot? {text : String} {doc : Document}
    (h : Document.ofSnapshot? text = some doc) : ∀ w ∈ doc.values, w.Rebuilt := by
  simp only [Document.ofSnapshot?, Option.bind_eq_bind, Option.bind_eq_some_iff] at h
  obtain ⟨node, -, h⟩ := h
  exact Snapshot.rebuilt_document? h

end DataLisp
