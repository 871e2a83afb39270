/-
Searches visit every group once.

A group in a document is told from all others by its address: which top group to start from, and
which entry or item to go to at each step. `Value.places` lists the groups of a value with their
addresses in the order of a search. That nothing is missing and nothing comes twice are two facts
about this list: an address is in it exactly if it leads to a group, and with that group
(`Value.mem_places`); and the addresses ascend, each before those inside it, named entries before
anonymous ones (`Value.pairwise_places`). Such a list is the only one of its kind, so searching can
be described by it: `Value.visit_eq` reads any search off it.

What a value holds, with the step to each part, is a list of its own (`Value.children`), so that
each proof is one induction with one case (`Value.children_induction`).
-/
import DataLisp.Document.Search
import DataLisp.Proofs.IndexedGroups
import DataLisp.Proofs.SnapshotLoading
import Mathlib.Data.List.Lex

set_option autoImplicit false

namespace DataLisp

/-! ## Addresses -/

/-- A step from a group to one of its entries, or from an array to one of its items. -/
inductive Step where
  | named (i : Nat)
  | anonymous (i : Nat)
  | item (i : Nat)
deriving DecidableEq, Repr

/-- The order of the steps from one value. -/
def Step.Before : Step → Step → Prop
  | named i, named j | anonymous i, anonymous j | item i, item j => i < j
  | named _, anonymous _ => True
  | _, _ => False

/-- The value that a step leads to. -/
def Value.step? : Value → Step → Option Value
  | .group g, .named i => g.named[i]?.map Prod.snd
  | .group g, .anonymous i => g.anonymous[i]?
  | .array items, .item i => items[i]?.map Item.value
  | _, _ => none

/-- The value that several steps lead to. -/
def Value.at? (v : Value) : List Step → Option Value
  | [] => some v
  | s :: address => (v.step? s).bind fun w => w.at? address

/-- A document as the array of its top groups: the first step of an address goes to one of
these. -/
def Document.array (doc : Document) : Value :=
  .array (doc.map fun g => .ofValue (.group g))

/-- The group at an address. -/
def Document.groupAt? (doc : Document) (address : List Step) : Option Group :=
  (doc.array.at? address).bind Value.group?

/-! ## The groups with their addresses -/

/-- Places inside a part, seen from where a step leads to that part. -/
def Step.further (s : Step) (places : List (List Step × Group)) : List (List Step × Group) :=
  places.map fun place => (s :: place.1, place.2)

mutual

/-- The groups of a value with their addresses, each before the groups inside it. -/
def Value.places : Value → List (List Step × Group)
  | .group g => ([], g) :: g.places
  | .array items => Items.places 0 items
  | .null | .string _ | .integer _ | .float _ | .bool _ => []

/-- The groups inside a group, those under its named entries first. -/
def Group.places : Group → List (List Step × Group)
  | ⟨_, named, anonymous⟩ => Named.places 0 named ++ Values.places 0 anonymous

/-- The groups under named entries, the first of which stands at position `i`. -/
def Named.places (i : Nat) : List (String × Value) → List (List Step × Group)
  | [] => []
  | (_, v) :: rest => (Step.named i).further v.places ++ Named.places (i + 1) rest

/-- The groups under anonymous entries. -/
def Values.places (i : Nat) : List Value → List (List Step × Group)
  | [] => []
  | v :: rest => (Step.anonymous i).further v.places ++ Values.places (i + 1) rest

/-- The groups under the items of an array. -/
def Items.places (i : Nat) : List Item → List (List Step × Group)
  | [] => []
  | ⟨_, v⟩ :: rest => (Step.item i).further v.places ++ Items.places (i + 1) rest

end

/-- The groups of a document with their addresses. -/
def Document.places (doc : Document) : List (List Step × Group) :=
  doc.array.places

/-- The groups of a document, on top and inside, as often as they occur. -/
def Document.groups (doc : Document) : List Group :=
  doc.places.map Prod.snd

/-! ## What a value holds -/

/-- What a value holds, each with the step to it, in the order of a search. -/
def Value.children : Value → List (Step × Value)
  | .group g =>
    (g.named.zipIdx.map fun (entry, i) => (.named i, entry.2)) ++
      g.anonymous.zipIdx.map fun (v, i) => (.anonymous i, v)
  | .array items => items.zipIdx.map fun (d, i) => (.item i, d.value)
  | .null | .string _ | .integer _ | .float _ | .bool _ => []

/-- The children of a group are its entries, the named ones first. -/
theorem Value.map_snd_children_group (g : Group) :
    (Value.group g).children.map Prod.snd = g.named.map Prod.snd ++ g.anonymous := by
  have hnamed : g.named.map Prod.snd = (g.named.zipIdx.map Prod.fst).map Prod.snd := by
    rw [List.zipIdx_map_fst]
  have hanonymous : g.anonymous = g.anonymous.zipIdx.map Prod.fst := by rw [List.zipIdx_map_fst]
  rw [children, List.map_append, List.map_map, List.map_map, hnamed, List.map_map]
  conv_rhs => rw [hanonymous]
  rfl

theorem Value.map_snd_children_array (items : List Item) :
    (Value.array items).children.map Prod.snd = items.map Item.value := by
  have hitems : items.map Item.value = (items.zipIdx.map Prod.fst).map Item.value := by
    rw [List.zipIdx_map_fst]
  rw [children, List.map_map, hitems, List.map_map]
  rfl

/-- Induction over a value: what it holds comes first. -/
@[elab_as_elim]
theorem Value.children_induction {motive : Value → Prop}
    (step : ∀ v, (∀ child ∈ v.children, motive child.2) → motive v) (v : Value) : motive v := by
  have hchildren : ∀ {w : Value}, (∀ u ∈ w.children.map Prod.snd, motive u) → motive w := by
    intro w hw
    exact step w fun child hchild => hw child.2 (List.mem_map_of_mem hchild)
  induction v using Value.induction with
  | null | string _ | integer _ | float _ | bool _ => exact step _ (by simp [children])
  | group g hanonymous hnamed =>
    apply hchildren
    rw [map_snd_children_group, List.forall_mem_append, List.forall_mem_map]
    exact ⟨hnamed, hanonymous⟩
  | array items hitems =>
    apply hchildren
    rw [map_snd_children_array, List.forall_mem_map]
    exact hitems

theorem Named.places_eq (i : Nat) (named : List (String × Value)) :
    Named.places i named = (named.zipIdx i).flatMap fun (entry, i) =>
      (Step.named i).further entry.2.places := by
  induction named generalizing i with
  | nil => rfl
  | cons entry rest ih => rw [Named.places, ih, List.zipIdx_cons, List.flatMap_cons]

theorem Values.places_eq (i : Nat) (vs : List Value) :
    Values.places i vs = (vs.zipIdx i).flatMap fun (v, i) =>
      (Step.anonymous i).further v.places := by
  induction vs generalizing i with
  | nil => rfl
  | cons v rest ih => rw [Values.places, ih, List.zipIdx_cons, List.flatMap_cons]

theorem Items.places_eq (i : Nat) (items : List Item) :
    Items.places i items = (items.zipIdx i).flatMap fun (d, i) =>
      (Step.item i).further d.value.places := by
  induction items generalizing i with
  | nil => rfl
  | cons d rest ih =>
    obtain ⟨key, v⟩ := d
    rw [Items.places, ih, List.zipIdx_cons, List.flatMap_cons]

/-- **The groups of a value** are the value itself, if it is one, and those of what it holds. -/
theorem Value.places_eq (v : Value) : v.places =
    (v.group?.toList.map fun g => ([], g)) ++
      v.children.flatMap fun child => child.1.further child.2.places := by
  cases v with
  | null | string _ | integer _ | float _ | bool _ => rfl
  | group g =>
    obtain ⟨id, named, anonymous⟩ := g
    rw [places, Group.places, Named.places_eq, Values.places_eq, children, List.flatMap_append,
      List.flatMap_map, List.flatMap_map]
    rfl
  | array items =>
    rw [places, Items.places_eq, children, List.flatMap_map]
    rfl

/-! ## Nothing is missing -/

/-- A step leads to a child exactly if the child stands there. -/
theorem Value.mem_children {v w : Value} {s : Step} :
    (s, w) ∈ v.children ↔ v.step? s = some w := by
  cases v with
  | null | string _ | integer _ | float _ | bool _ => simp [children, step?]
  | group g =>
    cases s with
    | named i | anonymous i => simp [children, step?, List.mk_mem_zipIdx_iff_getElem?]
    | item i => simp [children, step?]
  | array items =>
    cases s <;> simp [children, step?, List.mk_mem_zipIdx_iff_getElem?]

/-- An address that goes on from a step starts with it. -/
theorem Step.mem_further {s : Step} {places : List (List Step × Group)} {address : List Step}
    {g : Group} : (address, g) ∈ s.further places ↔
      ∃ rest, address = s :: rest ∧ (rest, g) ∈ places := by
  simp only [further, List.mem_map, Prod.mk.injEq, Prod.exists]
  constructor
  · rintro ⟨rest, h, hplace, rfl, rfl⟩
    exact ⟨rest, rfl, hplace⟩
  · rintro ⟨rest, rfl, hplace⟩
    exact ⟨rest, g, hplace, rfl, rfl⟩

/-- **An address is listed with a group exactly if it leads there.** -/
theorem Value.mem_places {v : Value} {address : List Step} {g : Group} :
    (address, g) ∈ v.places ↔ (v.at? address).bind Value.group? = some g := by
  induction v using Value.children_induction generalizing address with
  | step v ih =>
    rw [places_eq, List.mem_append, List.mem_flatMap]
    cases address with
    | nil => simp [at?, Step.mem_further]
    | cons s rest =>
      have hself : (s :: rest, g) ∉ v.group?.toList.map fun g => ([], g) := by simp
      rw [or_iff_right hself, at?, Option.bind_assoc, Option.bind_eq_some_iff]
      constructor
      · rintro ⟨⟨s', w⟩, hchild, hplace⟩
        obtain ⟨rest', hcons, hrest⟩ := Step.mem_further.mp hplace
        cases hcons
        exact ⟨w, mem_children.mp hchild, (ih _ hchild).mp hrest⟩
      · rintro ⟨w, hstep, hrest⟩
        have hchild := mem_children.mpr hstep
        exact ⟨(s, w), hchild, Step.mem_further.mpr ⟨rest, rfl, (ih _ hchild).mpr hrest⟩⟩

/-! ## Nothing comes twice -/

/-- Nothing comes before itself. -/
theorem Step.Before.ne {s s' : Step} (h : s.Before s') : s ≠ s' := by
  rintro rfl
  cases s <;> exact Nat.lt_irrefl _ h

/-- Positions ascend along a list, and with them the steps to these positions. -/
theorem pairwise_zipIdx {α β : Type} (l : List α) {f : α × Nat → β} {R : β → β → Prop}
    (hf : ∀ p q : α × Nat, p.2 < q.2 → R (f p) (f q)) : (l.zipIdx.map f).Pairwise R := by
  have hpositions : (l.zipIdx.map Prod.snd).Pairwise (· < ·) := by
    rw [List.zipIdx_map_snd]
    exact List.pairwise_lt_range'
  rw [List.pairwise_map] at hpositions ⊢
  exact hpositions.imp (hf _ _)

/-- The children of a value stand in the order of their steps. -/
theorem Value.pairwise_children (v : Value) :
    v.children.Pairwise fun child child' => child.1.Before child'.1 := by
  cases v with
  | null | string _ | integer _ | float _ | bool _ => exact .nil
  | group g =>
    rw [children, List.pairwise_append]
    refine ⟨pairwise_zipIdx _ fun _ _ h => h, pairwise_zipIdx _ fun _ _ h => h, ?_⟩
    -- named entries come before anonymous ones
    intro child hchild child' hchild'
    obtain ⟨_, -, rfl⟩ := List.mem_map.mp hchild
    obtain ⟨_, -, rfl⟩ := List.mem_map.mp hchild'
    trivial
  | array items => exact pairwise_zipIdx _ fun _ _ h => h

/-- **The addresses ascend.** -/
theorem Value.pairwise_places (v : Value) :
    (v.places.map Prod.fst).Pairwise (List.Lex Step.Before) := by
  induction v using Value.children_induction with
  | step v ih =>
    rw [places_eq, List.pairwise_map, List.pairwise_append, List.pairwise_flatMap]
    refine ⟨?_, ⟨?_, ?_⟩, ?_⟩
    · cases v.group? with
      | none => exact .nil
      | some g => exact List.pairwise_singleton _ _
    · -- inside one part the addresses begin with the same step
      intro child hchild
      have hinside := List.pairwise_map.mp (ih child hchild)
      rw [Step.further, List.pairwise_map]
      exact hinside.imp List.Lex.cons
    · -- and in different parts with different ones
      refine v.pairwise_children.imp ?_
      rintro ⟨s, w⟩ ⟨s', w'⟩ hbefore ⟨address, g⟩ hplace ⟨address', g'⟩ hplace'
      obtain ⟨rest, rfl, -⟩ := Step.mem_further.mp hplace
      obtain ⟨rest', rfl, -⟩ := Step.mem_further.mp hplace'
      exact List.Lex.rel hbefore
    · -- the value itself comes before what it holds
      intro self hself
      obtain ⟨g, -, rfl⟩ := List.mem_map.mp hself
      rintro ⟨address, g'⟩ hplace
      obtain ⟨child, -, hplace⟩ := List.mem_flatMap.mp hplace
      obtain ⟨rest, rfl, -⟩ := Step.mem_further.mp hplace
      exact List.Lex.nil

/-- So no address comes twice. -/
theorem Value.nodup_places (v : Value) : (v.places.map Prod.fst).Nodup := by
  refine v.pairwise_places.imp ?_
  intro address address' hbefore
  exact List.Lex.to_ne (List.Lex.imp (fun _ _ => Step.Before.ne) _ _ hbefore)

/-! ## Searches -/

section Visit

variable {α : Type} (find : Group → List α)

theorem Named.visit_eq (named : List (String × Value)) :
    Named.visit find named = (named.map Prod.snd).flatMap fun v => v.visit find := by
  induction named with
  | nil => rfl
  | cons entry rest ih => rw [Named.visit, ih, List.map_cons, List.flatMap_cons]

theorem Values.visit_eq (vs : List Value) :
    Values.visit find vs = vs.flatMap fun v => v.visit find := by
  induction vs with
  | nil => rfl
  | cons v rest ih => rw [Values.visit, ih, List.flatMap_cons]

theorem Items.visit_eq (items : List Item) :
    Items.visit find items = (items.map Item.value).flatMap fun v => v.visit find := by
  induction items with
  | nil => rfl
  | cons d rest ih =>
    obtain ⟨key, v⟩ := d
    rw [Items.visit, ih, List.map_cons, List.flatMap_cons]

/-- A search finds what it finds in the value itself, and then in what the value holds. -/
theorem Value.visit_children (v : Value) : v.visit find =
    v.group?.toList.flatMap find ++ (v.children.map Prod.snd).flatMap fun w => w.visit find := by
  cases v with
  | null | string _ | integer _ | float _ | bool _ => rfl
  | group g =>
    rw [map_snd_children_group, List.flatMap_append, ← Named.visit_eq, ← Values.visit_eq]
    obtain ⟨id, named, anonymous⟩ := g
    rw [visit, Group.visit, group?, Option.toList_some, List.flatMap_singleton]
  | array items =>
    rw [map_snd_children_array, ← Items.visit_eq]
    rfl

/-- **A search goes over the places**, one after the other. -/
theorem Value.visit_eq (v : Value) : v.visit find = v.places.flatMap fun place => find place.2 := by
  induction v using Value.children_induction with
  | step v ih =>
    rw [visit_children, places_eq, List.flatMap_append, List.flatMap_map, List.flatMap_map,
      List.flatMap_assoc]
    congr 1
    refine List.flatMap_congr ?_
    intro child hchild
    rw [ih child hchild, Step.further, List.flatMap_map]

/-- Visiting a document is looking at its groups in their order. -/
theorem Document.visit_eq (doc : Document) :
    doc.flatMap (Group.visit find) = doc.groups.flatMap find := by
  have harray : doc.array.visit find = doc.flatMap (Group.visit find) := by
    rw [array, Value.visit, Items.visit_eq, List.map_map, List.flatMap_map]
    rfl
  rw [← harray, Value.visit_eq, groups, List.flatMap_map, places]

end Visit

/-- What is said of all values of a value is said of it and of all values of what it holds. -/
theorem forall_values_children {P : Value → Prop} {v : Value} :
    (∀ w ∈ v.values, P w) ↔ P v ∧ ∀ u ∈ v.children.map Prod.snd, ∀ w ∈ u.values, P w := by
  cases v with
  | null | string _ | integer _ | float _ | bool _ => simp [Value.values, Value.children]
  | group g =>
    rw [forall_values_group, forall_values_inside, Value.map_snd_children_group,
      List.forall_mem_append, List.forall_mem_map]
    exact and_congr_right fun _ => and_comm
  | array items => rw [forall_values_array, Value.map_snd_children_array, List.forall_mem_map]

/-- The groups of a value are among its values. -/
theorem Value.forall_places {P : Value → Prop} {v : Value} (h : ∀ w ∈ v.values, P w) :
    ∀ place ∈ v.places, P (.group place.2) := by
  induction v using Value.children_induction with
  | step v ih =>
    obtain ⟨hself, hinside⟩ := forall_values_children.mp h
    rw [places_eq, List.forall_mem_append, List.forall_mem_map, List.forall_mem_flatMap]
    constructor
    · intro g hg
      cases v <;> simp [group?] at hg
      rwa [hg]
    · intro child hchild
      have hplaces := ih child hchild (hinside child.2 (List.mem_map_of_mem hchild))
      rw [Step.further, List.forall_mem_map]
      exact hplaces

/-- Where keys are distinct, a lookup finds all there is under a key. -/
theorem Group.filter_namedItems {g : Group} (h : (OrderedMap.keys g.named).Nodup) (key : String) :
    (g.namedItems.filter fun d => d.key = some key) =
      ((g.get? key).map (Item.keyed key)).toList := by
  have hkey : (fun d : Item => decide (d.key = some key)) ∘ Item.ofEntry =
      fun entry => decide (entry.1 = key) := by
    funext entry
    simp [Item.ofEntry, Item.keyed]
  rw [namedItems, List.filter_map, hkey, OrderedMap.filter_keys h, get?]
  cases OrderedMap.get? g.named key <;> rfl

/-- An index that is in step with the entries of a group finds what a search through them finds. -/
theorem IndexedGroup.Valid.map_item_get? {i : IndexedGroup Value} (hi : i.Valid) (key : String) :
    (i.get? key).map item = (i.view.get? key).map (Item.keyed key) := by
  rw [get?_view hi, hi.get?_eq, Option.map_map, Option.map_map, Option.map_map]
  rfl

namespace Document

/-- Every group of a coherent document is coherent, at any depth. -/
theorem coherent_groups {doc : Document} (h : ∀ w ∈ doc.values, w.Coherent) :
    ∀ g ∈ doc.groups, (Value.group g).Coherent := by
  have harray : ∀ w ∈ doc.array.values, w.Coherent := by
    refine forall_values_array.mpr ⟨trivial, ?_⟩
    rw [List.forall_mem_map]
    exact forall_values_document.mp h
  rw [groups, List.forall_mem_map]
  exact Value.forall_places harray

/-- Searching by id leaves the groups with that id, in their order. -/
theorem groupsWithId_eq (doc : Document) (id : String) :
    doc.groupsWithId id = doc.groups.filter fun g => g.id = id := by
  have hfound : (fun g : Group => if g.id = id then [g] else []) =
      fun g => (Option.guard (fun g : Group => g.id = id) g).toList := by
    funext g
    by_cases hid : g.id = id <;> simp [Option.guard, hid]
  rw [groupsWithId, visit_eq, hfound, ← List.filterMap_eq_flatMap_toList, List.filterMap_eq_filter]

/-- Searching by key asks each group for its entry, and no group has two. -/
theorem itemsWithKey_eq (doc : Document) (key : String) : doc.itemsWithKey key =
    doc.groups.flatMap fun g => ((g.get? key).map (Item.keyed key)).toList :=
  doc.visit_eq _

/-- **A search is complete and in order.** The groups of a document are listed in depth-first
order, each occurrence once: the addresses ascend, and they are those at which there is a group.
A search for an id is this list less the groups of other ids. A search for a key gives every named
entry under this key, of each group in its turn; that it is looked up through an index of keys makes
no difference, if the index of each group is in step with its entries. So a search in two documents
one after the other is a search in each. That a group has distinct keys is what the operations and
the loading of snapshots see to. -/
theorem search_complete {doc : Document} (h : ∀ w ∈ doc.values, w.Coherent) :
    (∀ address g, (address, g) ∈ doc.places ↔ doc.groupAt? address = some g) ∧
    (doc.places.map Prod.fst).Pairwise (List.Lex Step.Before) ∧
    (doc.places.map Prod.fst).Nodup ∧
    (∀ id, doc.groupsWithId id = doc.groups.filter fun g => g.id = id) ∧
    (∀ key, doc.itemsWithKey key =
      doc.groups.flatMap fun g => g.namedItems.filter fun d => d.key = some key) ∧
    (∀ indexed : Group → IndexedGroup Value,
      (∀ g ∈ doc.groups, (indexed g).Valid ∧ (indexed g).view = g) →
      ∀ key, doc.itemsWithKey key =
        doc.groups.filterMap fun g => ((indexed g).get? key).map IndexedGroup.item) ∧
    ∀ more : Document,
      (∀ id, groupsWithId (doc ++ more) id = doc.groupsWithId id ++ more.groupsWithId id) ∧
      ∀ key, itemsWithKey (doc ++ more) key = doc.itemsWithKey key ++ more.itemsWithKey key := by
  refine ⟨fun _ _ => Value.mem_places, doc.array.pairwise_places, doc.array.nodup_places,
    doc.groupsWithId_eq, ?_, ?_, fun more => ⟨fun _ => List.flatMap_append,
      fun _ => List.flatMap_append⟩⟩
  · intro key
    rw [itemsWithKey_eq]
    refine List.flatMap_congr ?_
    intro g hg
    exact (Group.filter_namedItems (coherent_groups h g hg).2 key).symm
  · intro indexed hindexed key
    rw [itemsWithKey_eq, List.filterMap_eq_flatMap_toList]
    refine List.flatMap_congr ?_
    intro g hg
    obtain ⟨hvalid, hview⟩ := hindexed g hg
    rw [hvalid.map_item_get?, hview]

/-- A group inside a group and one inside an array are found before the top group that follows, and
each group can be kept with an index, which adding its entries again builds. -/
theorem search_complete_nested :
    let doc : Document := [⟨"scene", [("origin", .group ⟨"point", [("x", .integer 1)], []⟩)],
      [.array [.ofValue (.group ⟨"point", [("x", .integer 7)], []⟩)]]⟩,
      ⟨"point", [("x", .integer 3)], []⟩]
    let indexed (g : Group) : IndexedGroup Value :=
      .run (.ofId g.id) ((g.entries.map fun d => (d.key, d.value)).map .add)
    (∀ w ∈ doc.values, w.Coherent) ∧
    ([.item 0, .anonymous 0, .item 0], ⟨"point", [("x", .integer 7)], []⟩) ∈ doc.places ∧
    doc.groupsWithId "point" = [⟨"point", [("x", .integer 1)], []⟩,
      ⟨"point", [("x", .integer 7)], []⟩, ⟨"point", [("x", .integer 3)], []⟩] ∧
    doc.itemsWithKey "x" =
      [.keyed "x" (.integer 1), .keyed "x" (.integer 7), .keyed "x" (.integer 3)] ∧
    (∀ g ∈ doc.groups, (indexed g).Valid ∧ (indexed g).view = g) ∧
    doc.itemsWithKey "x" =
      doc.groups.filterMap fun g => ((indexed g).get? "x").map IndexedGroup.item := by
  intro doc indexed
  have hcoherent : ∀ w ∈ doc.values, w.Coherent := by
    simp [doc, values, Value.values, Group.values, Named.values, Values.values, Items.values,
      Item.ofValue, Value.Coherent, OrderedMap.keys]
  have hindexed : ∀ g ∈ doc.groups, (indexed g).Valid ∧ (indexed g).view = g := by
    intro g hg
    obtain ⟨hid, hkeys⟩ := coherent_groups hcoherent g hg
    refine ⟨IndexedGroup.valid_run (IndexedGroup.valid_ofId g.id) _, ?_⟩
    rw [IndexedGroup.view_adds, Group.addAll_entries hid hkeys]
  obtain ⟨hplaces, -, -, hid, hkey, hindex, -⟩ := search_complete hcoherent
  exact ⟨hcoherent, (hplaces _ _).mpr rfl, (hid "point").trans rfl, (hkey "x").trans rfl, hindexed,
    hindex indexed hindexed "x"⟩

end Document

end DataLisp
