/-
Documents as trees of values.

A group holds values, an array holds values, and everything else is a scalar. What is said
of a document at every depth is said here in one way: of every value in the list of its
values (`Value.values`). How the values of a group or an array break up is stated once
(`forall_values_group`, `forall_values_array`), and proofs go by one induction
(`Value.induction`) whose cases are those of a value, so no proof has to follow the lists
inside groups by hand. A group takes items in a row as it takes them one by one, those with a key
into its map and the others behind its list (`Group.addAll_eq`).

Two facts about single values, asked of all values of a document, make it one that the
operations of the model can build: the keys of every group are distinct and its id is not
empty, and the items of every array carry no key. The operations are listed in `Made`;
that they keep this is `Made.wellMade`, and that nothing else is asked for, every such
document being made by them, is `Value.made_of_wellMade`.
-/
import DataLisp.Document.Items
import DataLisp.Document.Group
import DataLisp.Document.Text
import DataLisp.Proofs.OrderedMaps

set_option autoImplicit false

namespace DataLisp

/-! ## Induction -/

/-- Induction over a value: the entries of a group and the items of an array come first. -/
@[elab_as_elim]
theorem Value.induction {motive : Value → Prop} (null : motive .null)
    (string : ∀ s, motive (.string s)) (integer : ∀ i, motive (.integer i))
    (float : ∀ x, motive (.float x)) (bool : ∀ b, motive (.bool b))
    (group : ∀ g, (∀ v ∈ g.anonymous, motive v) → (∀ entry ∈ g.named, motive entry.2) →
      motive (.group g))
    (array : ∀ items, (∀ d ∈ items, motive d.value) → motive (.array items)) (v : Value) :
    motive v :=
  @Value.rec motive (fun g => motive (.group g)) (fun d => motive d.value)
    (fun items => ∀ d ∈ items, motive d.value) (fun named => ∀ entry ∈ named, motive entry.2)
    (fun vs => ∀ v ∈ vs, motive v) (fun entry => motive entry.2)
    null string integer float bool (fun _ hg => hg) array
    (fun id named anonymous hnamed hanonymous => group ⟨id, named, anonymous⟩ hanonymous hnamed)
    (fun _ _ hv => hv)
    (by simp) (fun _ _ hd hrest => List.forall_mem_cons.mpr ⟨hd, hrest⟩)
    (by simp) (fun _ _ hentry hrest => List.forall_mem_cons.mpr ⟨hentry, hrest⟩)
    (by simp) (fun _ _ hv hrest => List.forall_mem_cons.mpr ⟨hv, hrest⟩)
    (fun _ _ hv => hv) v

/-! ## All values of a document -/

mutual

/-- A value and all values inside it, each before what lies inside it. -/
def Value.values : Value → List Value
  | .group g => .group g :: g.values
  | .array items => .array items :: Items.values items
  | .null => [.null]
  | .string s => [.string s]
  | .integer i => [.integer i]
  | .float x => [.float x]
  | .bool b => [.bool b]

/-- All values inside a group. -/
def Group.values : Group → List Value
  | ⟨_, named, anonymous⟩ => Values.values anonymous ++ Named.values named

/-- All values of named entries. -/
def Named.values : List (String × Value) → List Value
  | [] => []
  | (_, v) :: rest => v.values ++ Named.values rest

/-- All values of anonymous entries. -/
def Values.values : List Value → List Value
  | [] => []
  | v :: rest => v.values ++ Values.values rest

/-- All values of the items of an array. -/
def Items.values : List Item → List Value
  | [] => []
  | ⟨_, v⟩ :: rest => v.values ++ Items.values rest

end

/-- All values of a document: its top groups, and all values inside them. -/
def Document.values (doc : Document) : List Value :=
  doc.flatMap fun g => (Value.group g).values

theorem Named.values_eq (named : List (String × Value)) :
    Named.values named = named.flatMap fun entry => entry.2.values := by
  induction named with
  | nil => rfl
  | cons entry rest ih => rw [Named.values, List.flatMap_cons, ih]

theorem Values.values_eq (vs : List Value) : Values.values vs = vs.flatMap Value.values := by
  induction vs with
  | nil => rfl
  | cons v rest ih => rw [Values.values, List.flatMap_cons, ih]

theorem Items.values_eq (items : List Item) :
    Items.values items = items.flatMap fun d => d.value.values := by
  induction items with
  | nil => rfl
  | cons d rest ih =>
    obtain ⟨key, v⟩ := d
    rw [Items.values, List.flatMap_cons, ih]

theorem Group.values_eq (g : Group) :
    g.values = g.anonymous.flatMap Value.values ++ g.named.flatMap fun entry => entry.2.values := by
  obtain ⟨id, named, anonymous⟩ := g
  rw [Group.values, Values.values_eq, Named.values_eq]

section ForallValues

variable {P : Value → Prop}

/-- What is said of all values inside a group is said of those of its entries. -/
theorem forall_values_inside {g : Group} :
    (∀ w ∈ g.values, P w) ↔
      (∀ v ∈ g.anonymous, ∀ w ∈ v.values, P w) ∧
        ∀ entry ∈ g.named, ∀ w ∈ entry.2.values, P w := by
  simp only [Group.values_eq, List.forall_mem_append, List.forall_mem_flatMap]

/-- A group counts itself besides what lies inside it. -/
theorem forall_values_group {g : Group} :
    (∀ w ∈ (Value.group g).values, P w) ↔ P (.group g) ∧ ∀ w ∈ g.values, P w := by
  rw [Value.values, List.forall_mem_cons]

/-- So does an array. -/
theorem forall_values_array {items : List Item} :
    (∀ w ∈ (Value.array items).values, P w) ↔
      P (.array items) ∧ ∀ d ∈ items, ∀ w ∈ d.value.values, P w := by
  rw [Value.values, List.forall_mem_cons, Items.values_eq]
  simp only [List.forall_mem_flatMap]

/-- What is true throughout a document is true throughout each of its groups. -/
theorem forall_values_document {doc : Document} :
    (∀ w ∈ doc.values, P w) ↔ ∀ g ∈ doc, ∀ w ∈ (Value.group g).values, P w := by
  simp only [Document.values, List.forall_mem_flatMap]

end ForallValues

/-! ## Depth -/

mutual

/-- How many groups and arrays lie inside each other in a value. -/
def Value.depth : Value → Nat
  | .group g => g.depth + 1
  | .array items => Items.depth items + 1
  | .null | .string _ | .integer _ | .float _ | .bool _ => 0

/-- The same for what lies inside a group, which does not count itself. -/
def Group.depth : Group → Nat
  | ⟨_, named, anonymous⟩ => max (Values.depth anonymous) (Named.depth named)

/-- The same for named entries. -/
def Named.depth : List (String × Value) → Nat
  | [] => 0
  | (_, v) :: rest => max v.depth (Named.depth rest)

/-- The same for anonymous entries. -/
def Values.depth : List Value → Nat
  | [] => 0
  | v :: rest => max v.depth (Values.depth rest)

/-- The same for the items of an array. -/
def Items.depth : List Item → Nat
  | [] => 0
  | ⟨_, v⟩ :: rest => max v.depth (Items.depth rest)

end

section Depth

variable {n : Nat}

theorem Named.depth_le {named : List (String × Value)} :
    Named.depth named ≤ n ↔ ∀ entry ∈ named, entry.2.depth ≤ n := by
  induction named with
  | nil => simp [Named.depth]
  | cons entry rest ih => rw [Named.depth, Nat.max_le, ih, List.forall_mem_cons]

theorem Values.depth_le {vs : List Value} : Values.depth vs ≤ n ↔ ∀ v ∈ vs, v.depth ≤ n := by
  induction vs with
  | nil => simp [Values.depth]
  | cons v rest ih => rw [Values.depth, Nat.max_le, ih, List.forall_mem_cons]

theorem Items.depth_le {items : List Item} :
    Items.depth items ≤ n ↔ ∀ d ∈ items, d.value.depth ≤ n := by
  induction items with
  | nil => simp [Items.depth]
  | cons d rest ih =>
    obtain ⟨key, v⟩ := d
    rw [Items.depth, Nat.max_le, ih, List.forall_mem_cons]

theorem Group.depth_le {g : Group} :
    g.depth ≤ n ↔ (∀ v ∈ g.anonymous, v.depth ≤ n) ∧ ∀ entry ∈ g.named, entry.2.depth ≤ n := by
  obtain ⟨id, named, anonymous⟩ := g
  rw [Group.depth, Nat.max_le, Values.depth_le, Named.depth_le]

end Depth

/-! ## Properties that are kept -/

/-- Whether a property of single values is true of null and of truth values, of groups and of arrays
without keys, whatever is put into them. -/
structure Value.Kept (P : Value → Prop) : Prop where
  null : P .null
  bool (b : Bool) : P (.bool b)
  ofId (id : String) : P (.group (Group.ofId id))
  add (g : Group) (d : Item) : P (.group g) → P (.group (g.add d))
  array (items : List Item) : (∀ d ∈ items, d.key = none) → P (.array items)

section Kept

variable {P : Value → Prop}

theorem Value.Kept.forall_null (hP : Kept P) : ∀ w ∈ Value.null.values, P w :=
  List.forall_mem_singleton.mpr hP.null

/-- A group without entries has nothing inside it. -/
theorem Value.Kept.forall_ofId (hP : Kept P) (id : String) :
    ∀ w ∈ (Value.group (Group.ofId id)).values, P w :=
  forall_values_group.mpr ⟨hP.ofId id,
    forall_values_inside.mpr ⟨by simp [Group.ofId], by simp [Group.ofId]⟩⟩

/-- The entries of a group are its anonymous and its named ones. -/
theorem Group.forall_entries {g : Group} :
    (∀ d ∈ g.entries, P d.value) ↔
      (∀ v ∈ g.anonymous, P v) ∧ ∀ entry ∈ g.named, P entry.2 := by
  rw [entries, List.forall_mem_append, namedItems, anonymousItems, List.forall_mem_map,
    List.forall_mem_map]
  exact and_comm

/-- A group is one in which everything has the property if it is so itself and its entries are. -/
theorem forall_values_entries {g : Group} :
    (∀ w ∈ (Value.group g).values, P w) ↔
      P (.group g) ∧ ∀ d ∈ g.entries, ∀ w ∈ d.value.values, P w := by
  rw [forall_values_group, forall_values_inside]
  exact and_congr_right fun _ => Group.forall_entries.symm

/-- An entry that is added may replace another, and brings in what is inside it. -/
theorem Value.Kept.forall_add (hP : Kept P) {g : Group} {d : Item}
    (hg : ∀ w ∈ (Value.group g).values, P w) (hd : ∀ w ∈ d.value.values, P w) :
    ∀ w ∈ (Value.group (g.add d)).values, P w := by
  obtain ⟨hself, hinside⟩ := forall_values_group.mp hg
  obtain ⟨hanonymous, hnamed⟩ := forall_values_inside.mp hinside
  refine forall_values_group.mpr ⟨hP.add g d hself, forall_values_inside.mpr ?_⟩
  obtain ⟨key, v⟩ := d
  cases key with
  | some key =>
    refine ⟨hanonymous, ?_⟩
    intro entry hentry
    rcases OrderedMap.mem_insert hentry with hold | rfl
    · exact hnamed entry hold
    · exact hd
  | none =>
    exact ⟨List.forall_mem_append.mpr ⟨hanonymous, List.forall_mem_singleton.mpr hd⟩, hnamed⟩

theorem Value.Kept.addAll (hP : Kept P) {g : Group} (h : P (.group g)) (items : List Item) :
    P (.group (g.addAll items)) := by
  induction items generalizing g with
  | nil => exact h
  | cons d rest ih => exact ih (hP.add g d h)

/-- The same for any number of entries. -/
theorem Value.Kept.forall_addAll (hP : Kept P) {g : Group} {items : List Item}
    (hg : ∀ w ∈ (Value.group g).values, P w) (hitems : ∀ d ∈ items, ∀ w ∈ d.value.values, P w) :
    ∀ w ∈ (Value.group (g.addAll items)).values, P w := by
  induction items generalizing g with
  | nil => exact hg
  | cons d rest ih =>
    rw [List.forall_mem_cons] at hitems
    exact ih (hP.forall_add hg hitems.1) hitems.2

end Kept

/-! ## Items added in a row -/

/-- The named entry that an item makes in a group, if it has a key. -/
def Item.pair? (d : Item) : Option (String × Value) :=
  d.key.map fun key => (key, d.value)

/-- The anonymous entry that it makes, if it has none. -/
def Item.free? (d : Item) : Option Value :=
  if d.isAnonymous then some d.value else none

/-- **Items added in a row** are inserted and appended apart: those with a key into the named
entries, those without behind the anonymous ones. -/
theorem Group.addAll_eq (g : Group) (ds : List Item) :
    g.addAll ds = ⟨g.id, OrderedMap.insertAll g.named (ds.filterMap Item.pair?),
      g.anonymous ++ ds.filterMap Item.free?⟩ := by
  induction ds generalizing g with
  | nil =>
    obtain ⟨id, named, anonymous⟩ := g
    simp [addAll, OrderedMap.insertAll]
  | cons d rest ih =>
    obtain ⟨key, v⟩ := d
    have hstep : g.addAll (⟨key, v⟩ :: rest) = (g.add ⟨key, v⟩).addAll rest := rfl
    rw [hstep, ih]
    cases key with
    | some key => rfl
    | none =>
      have hfree : (g.add ⟨none, v⟩).anonymous ++ rest.filterMap Item.free? =
          g.anonymous ++ v :: rest.filterMap Item.free? := List.append_assoc _ _ _
      rw [hfree]
      rfl

theorem Item.filterMap_ofEntry (named : List (String × Value)) :
    (named.map ofEntry).filterMap pair? = named ∧ (named.map ofEntry).filterMap free? = [] := by
  rw [List.filterMap_map, List.filterMap_map]
  exact ⟨List.filterMap_some, List.filterMap_eq_nil_iff.mpr fun _ _ => rfl⟩

theorem Item.filterMap_ofValue (anonymous : List Value) :
    (anonymous.map ofValue).filterMap pair? = [] ∧
      (anonymous.map ofValue).filterMap free? = anonymous := by
  rw [List.filterMap_map, List.filterMap_map]
  exact ⟨List.filterMap_eq_nil_iff.mpr fun _ _ => rfl, List.filterMap_some⟩

/-- The entries of a group make the entries of a group. -/
theorem Group.filterMap_entries (g : Group) :
    g.entries.filterMap Item.pair? = g.named ∧ g.entries.filterMap Item.free? = g.anonymous := by
  obtain ⟨hentry, hnone⟩ := Item.filterMap_ofEntry g.named
  obtain ⟨hno, hvalue⟩ := Item.filterMap_ofValue g.anonymous
  rw [entries, namedItems, anonymousItems, List.filterMap_append, List.filterMap_append, hentry,
    hnone, hno, hvalue]
  exact ⟨List.append_nil g.named, rfl⟩

/-! ## Well-made documents -/

/-- What the operations of the model see to in one value: the id of a group is not empty and
its keys are distinct, and the items of an array have no keys. -/
def Value.WellMade : Value → Prop
  | .group g => g.id ≠ "" ∧ (OrderedMap.keys g.named).Nodup
  | .array items => ∀ d ∈ items, d.key = none
  | .null | .string _ | .integer _ | .float _ | .bool _ => True

/-- Every group of a document, on top or inside, and every array in it is well made. -/
def Document.WellMade (doc : Document) : Prop :=
  ∀ w ∈ doc.values, w.WellMade

/-! ## What the operations build -/

/-- What the operations of the model build: values, groups and the items of arrays. -/
inductive Part where
  | value (v : Value)
  | group (g : Group)
  | items (items : List Item)

/-- **The operations.** Groups start without entries and take an id, named entries and
anonymous ones; arrays take items at the end or in place of others, or from a list. -/
inductive Made : Part → Prop where
  | null : Made (.value .null)
  | string (s : String) : Made (.value (.string s))
  | integer (i : Int64) : Made (.value (.integer i))
  | float (x : Binary64) : Made (.value (.float x))
  | bool (b : Bool) : Made (.value (.bool b))
  | group {g : Group} (hg : Made (.group g)) : Made (.value (.group g))
  | array {items : List Item} (h : Made (.items items)) : Made (.value (.array items))
  | ofId (id : String) : Made (.group (Group.ofId id))
  | setId {g : Group} (hg : Made (.group g)) (id : String) : Made (.group (g.setId id))
  | add {g : Group} {d : Item} (hg : Made (.group g)) (hd : Made (.value d.value)) :
      Made (.group (g.add d))
  | insert {g : Group} {v : Value} (hg : Made (.group g)) (key : String) (hv : Made (.value v)) :
      Made (.group (g.insert key v))
  | push {g : Group} {v : Value} (hg : Made (.group g)) (hv : Made (.value v)) :
      Made (.group (g.push v))
  | noItems : Made (.items [])
  | pushItem {items : List Item} {d : Item} (h : Made (.items items)) (hd : Made (.value d.value)) :
      Made (.items (Items.push items d))
  | setItem {items : List Item} {d : Item} (h : Made (.items items)) (index : Nat)
      (hd : Made (.value d.value)) : Made (.items (Items.set items index d))
  | collect {ds : List Item} (hds : ∀ d ∈ ds, Made (.value d.value)) :
      Made (.items (Items.collect ds))

/-- A document all of whose top groups are built by the operations. -/
def Document.Made (doc : Document) : Prop :=
  ∀ g ∈ doc, DataLisp.Made (.group g)

/-- What it is for a part to be well made, with everything inside it. -/
def Part.WellMade : Part → Prop
  | value v => ∀ w ∈ v.values, w.WellMade
  | group g => ∀ w ∈ (Value.group g).values, w.WellMade
  | items ds => ∀ d ∈ ds, d.key = none ∧ ∀ w ∈ d.value.values, w.WellMade

/-- The id that is given to a group without one is not empty either. -/
theorem Group.resolveId_ne (id : String) : resolveId id ≠ "" := by
  have h := resolveId_ne_empty id
  intro hempty
  rw [hempty] at h
  cases h

/-- An id that is not empty stands for itself. -/
theorem Group.resolveId_of_ne {id : String} (h : id ≠ "") : resolveId id = id := by
  rw [resolveId, if_neg (by simpa using h)]

/-- Additions keep keys distinct. -/
theorem Value.kept_wellMade : Kept WellMade where
  null := trivial
  bool _ := trivial
  ofId id := ⟨Group.resolveId_ne id, List.nodup_nil⟩
  add g d h := by
    obtain ⟨key, v⟩ := d
    cases key with
    | some key => exact ⟨h.1, OrderedMap.nodup_keys_insert h.2 key v⟩
    | none => exact h
  array _ h := h

section Items

variable {P : Item → Prop} {items : List Item} {d : Item}

/-- An item that is put into an array loses its key. -/
theorem Items.forall_push (h : ∀ e ∈ items, P e) (hd : P d.anonymous) : ∀ e ∈ push items d, P e :=
  List.forall_mem_append.mpr ⟨h, List.forall_mem_singleton.mpr hd⟩

/-- Setting past the end appends. -/
theorem Items.forall_set (h : ∀ e ∈ items, P e) (index : Nat) (hd : P d.anonymous) :
    ∀ e ∈ set items index d, P e := by
  unfold set
  split
  · exact forall_push h hd
  · intro e he
    rcases List.mem_or_eq_of_mem_set he with he | rfl
    · exact h e he
    · exact hd

end Items

/-- A group under another id holds what it held. -/
theorem Group.values_setId (g : Group) (id : String) : (g.setId id).values = g.values := by
  obtain ⟨old, named, anonymous⟩ := g
  rfl

theorem Group.depth_setId (g : Group) (id : String) : (g.setId id).depth = g.depth := by
  obtain ⟨old, named, anonymous⟩ := g
  rfl

/-- **What the operations build is well made** at every depth. -/
theorem Made.wellMade {part : Part} (h : Made part) : part.WellMade := by
  induction h with
  | null | string _ | integer _ | float _ | bool _ =>
    intro w hw
    rw [List.mem_singleton.mp hw]
    trivial
  | group _ ih => exact ih
  | array _ ih =>
    exact forall_values_array.mpr ⟨fun d hd => (ih d hd).1, fun d hd => (ih d hd).2⟩
  | ofId id => exact Value.kept_wellMade.forall_ofId id
  | setId _ id ih =>
    obtain ⟨⟨-, hkeys⟩, hinside⟩ := forall_values_group.mp ih
    rw [Part.WellMade, forall_values_group, Group.values_setId]
    exact ⟨⟨Group.resolveId_ne id, hkeys⟩, hinside⟩
  | add _ _ ihg ihd => exact Value.kept_wellMade.forall_add ihg ihd
  | @insert g v _ key _ ihg ihv =>
    exact Value.kept_wellMade.forall_add (d := .keyed key v) ihg ihv
  | @push g v _ _ ihg ihv => exact Value.kept_wellMade.forall_add (d := .ofValue v) ihg ihv
  | noItems =>
    intro d hd
    cases hd
  | pushItem _ _ ih ihd => exact Items.forall_push ih ⟨rfl, ihd⟩
  | setItem _ index _ ih ihd => exact Items.forall_set ih index ⟨rfl, ihd⟩
  | collect _ ih => exact List.forall_mem_map.mpr fun d hd => ⟨rfl, ih d hd⟩

/-- So is a document if all its groups are built so. -/
theorem Document.Made.wellMade {doc : Document} (h : doc.Made) : doc.WellMade :=
  forall_values_document.mpr fun g hg => (h g hg).wellMade

/-- Named entries with new keys can be set one after another. -/
theorem made_named {id : String} {anonymous : List Value} {named more : List (String × Value)}
    (hg : Made (.group ⟨id, named, anonymous⟩)) (hkeys : (OrderedMap.keys (named ++ more)).Nodup)
    (hmore : ∀ entry ∈ more, Made (.value entry.2)) :
    Made (.group ⟨id, named ++ more, anonymous⟩) := by
  induction more generalizing named with
  | nil =>
    rw [List.append_nil]
    exact hg
  | cons entry more ih =>
    obtain ⟨key, v⟩ := entry
    have hnew : key ∉ OrderedMap.keys named := OrderedMap.not_mem_keys_of_nodup hkeys
    have hinsert := hg.insert key (hmore _ List.mem_cons_self)
    rw [Group.insert, OrderedMap.insert_of_not_mem hnew] at hinsert
    rw [List.append_cons] at hkeys ⊢
    exact ih hinsert hkeys fun e he => hmore e (List.mem_cons_of_mem _ he)

/-- Anonymous entries may be added one after another. -/
theorem made_anonymous {id : String} {named : List (String × Value)} {anonymous more : List Value}
    (hg : Made (.group ⟨id, named, anonymous⟩)) (hmore : ∀ v ∈ more, Made (.value v)) :
    Made (.group ⟨id, named, anonymous ++ more⟩) := by
  induction more generalizing anonymous with
  | nil =>
    rw [List.append_nil]
    exact hg
  | cons v more ih =>
    rw [List.append_cons]
    exact ih (hg.push (hmore v List.mem_cons_self)) fun w hw => hmore w (List.mem_cons_of_mem _ hw)

/-- **A well-made value is built by the operations**, so being well made says all that they
have in common. -/
theorem Value.made_of_wellMade (v : Value) (h : ∀ w ∈ v.values, w.WellMade) :
    DataLisp.Made (.value v) := by
  induction v using Value.induction with
  | null => exact .null
  | string s => exact .string s
  | integer i => exact .integer i
  | float x => exact .float x
  | bool b => exact .bool b
  | group g ihanonymous ihnamed =>
    obtain ⟨⟨hid, hkeys⟩, hinside⟩ := forall_values_group.mp h
    obtain ⟨hanonymous, hnamed⟩ := forall_values_inside.mp hinside
    obtain ⟨id, named, anonymous⟩ := g
    -- first the group, then its named entries, then the anonymous ones
    have hstart := DataLisp.Made.ofId id
    rw [Group.ofId, Group.resolveId_of_ne hid] at hstart
    have hentries := made_named hstart hkeys fun e he => ihnamed e he (hnamed e he)
    exact .group (made_anonymous hentries fun v hv => ihanonymous v hv (hanonymous v hv))
  | array items ih =>
    obtain ⟨hkeys, hitems⟩ := forall_values_array.mp h
    have hcollect := DataLisp.Made.collect fun d hd => ih d hd (hitems d hd)
    -- collecting drops keys, and there are none
    have hsame : Items.collect items = items := by
      rw [Items.collect]
      refine (List.map_congr_left ?_).trans (List.map_id items)
      intro d hd
      obtain ⟨key, v⟩ := d
      have hkey : key = none := hkeys _ hd
      rw [hkey]
      rfl
    rw [hsame] at hcollect
    exact .array hcollect

/-- The documents that the operations build are the well-made ones. -/
theorem Document.made_iff_wellMade {doc : Document} : doc.Made ↔ doc.WellMade := by
  refine ⟨Document.Made.wellMade, ?_⟩
  intro h g hg
  have hgroup := (Value.group g).made_of_wellMade (forall_values_document.mp h g hg)
  cases hgroup with
  | group hg => exact hg

end DataLisp
