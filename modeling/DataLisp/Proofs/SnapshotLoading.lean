/-
A snapshot is loaded as the document that it was saved from, or not at all.

Loading does not put fields back where they were. It decodes a node of JSON by the names of the
fields, it takes a level for every bracket, and it starts each group from nothing and adds the
entries that it finds, the named ones first. So that the same group comes out needs two things of
it that hold of every group however it came about (`Value.Coherent`): its keys are distinct, so
that no entry replaces another, and its id is not empty, so that it stands for itself.

Each kind of structure is settled in the same way: something is loaded from its own snapshot exactly
if JSON has all floats in it and there are levels enough, and that is itself where its doubles are
read back exactly (`Snapshot.loads_of_coherent`). The induction is on the value, at all numbers of
levels.
-/
import DataLisp.Proofs.Conversion
import DataLisp.Snapshot

set_option autoImplicit false

namespace DataLisp

open OrderedMap

/-- What is true of every single value of a document, however it came about: a group has an id
and distinct keys. The items of an array may have keys, as loading leaves them what they have. -/
def Value.Coherent : Value → Prop
  | .group g => g.id ≠ "" ∧ (keys g.named).Nodup
  | .null | .string _ | .integer _ | .float _ | .bool _ | .array _ => True

/-- A double that is read back from JSON text, if there is one. -/
def Value.ReadsExactly : Value → Prop
  | .float x => x.ReadsExactly
  | .null | .string _ | .integer _ | .bool _ | .group _ | .array _ => True

/-- A group is what comes of adding its entries to a group without any. -/
theorem Group.addAll_entries {g : Group} (hid : g.id ≠ "") (hkeys : (keys g.named).Nodup) :
    (Group.ofId g.id).addAll g.entries = g := by
  obtain ⟨hnamed, hanonymous⟩ := g.filterMap_entries
  obtain ⟨id, named, anonymous⟩ := g
  rw [Group.addAll_eq, hnamed, hanonymous, ofId, resolveId_of_ne hid, List.nil_append]
  exact congrArg (Group.mk id · anonymous) (ofList_of_nodup hkeys)

/-- The JSON that saves an item, be it an entry or in an array. -/
def Item.toSnapshot (d : Item) : Json :=
  Snapshot.itemJson d.key d.value.toSnapshot

/-- Named entries are saved as items with their keys. -/
theorem Named.toSnapshot_eq (named : List (String × Value)) :
    Named.toSnapshot named = (named.map Item.ofEntry).map Item.toSnapshot := by
  induction named with
  | nil => rfl
  | cons entry rest ih =>
    rw [Named.toSnapshot, ih]
    rfl

/-- Anonymous entries are saved as items without a key. -/
theorem Values.toSnapshot_eq (vs : List Value) :
    Values.toSnapshot vs = (vs.map Item.ofValue).map Item.toSnapshot := by
  induction vs with
  | nil => rfl
  | cons v rest ih =>
    rw [Values.toSnapshot, ih]
    rfl

theorem Items.toSnapshot_eq (items : List Item) :
    Items.toSnapshot items = items.map Item.toSnapshot := by
  induction items with
  | nil => rfl
  | cons d rest ih =>
    obtain ⟨key, v⟩ := d
    rw [Items.toSnapshot, ih]
    rfl

theorem Group.toSnapshot_eq (g : Group) :
    g.toSnapshot = Snapshot.groupJson g.id (g.namedItems.map Item.toSnapshot)
      (g.anonymousItems.map Item.toSnapshot) := by
  obtain ⟨id, named, anonymous⟩ := g
  rw [Group.toSnapshot, Named.toSnapshot_eq, Values.toSnapshot_eq]
  rfl

namespace Snapshot

open Json (Node Part)

/-! ## Fields -/

theorem namedMembers_memberNodes (members : List (String × Json)) :
    namedMembers (Json.memberNodes members) = some (mapValues Json.toNode members) := by
  induction members with
  | nil => rfl
  | cons member rest ih =>
    obtain ⟨name, v⟩ := member
    rw [Json.memberNodes, namedMembers, Json.text?_ofChar, ih]
    rfl

/-- Among members with distinct names there is at most one of a name. -/
theorem memberOnce?_of_nodup {members : List (String × Node)} (h : (keys members).Nodup)
    (name : String) : memberOnce? members name = some (get? members name) := by
  induction members with
  | nil => rfl
  | cons member rest ih =>
    obtain ⟨key, node⟩ := member
    obtain ⟨hnew, hrest⟩ := List.nodup_cons.mp h
    rw [get?, List.lookup_cons, memberOnce?]
    by_cases hkey : key = name
    · subst hkey
      have hothers : rest.filter (fun m => m.1 = key) = [] := by
        rw [List.filter_eq_nil_iff]
        intro m hm
        have hne : m.1 ≠ key := by
          rintro rfl
          exact hnew (List.mem_map.mpr ⟨m, hm, rfl⟩)
        simpa using hne
      rw [List.filter_cons_of_pos (by simp), hothers, beq_self_eq_true]
    · have hne : (name == key) = false := beq_eq_false_iff_ne.mpr (Ne.symm hkey)
      rw [List.filter_cons_of_neg (by simpa using hkey), hne, ← memberOnce?, ih hrest, get?]

/-- **The fields of an object** with distinct names are its members of these names. -/
theorem fields?_object {members : List (String × Json)} (h : (keys members).Nodup)
    (names : List String) :
    fields? names (Json.object members).toNode =
      some (names.map fun name => get? (mapValues Json.toNode members) name) := by
  have hnodup : (keys (mapValues Json.toNode members)).Nodup := by rwa [keys_mapValues]
  rw [Json.toNode, fields?, namedMembers_memberNodes, Option.bind_eq_bind, Option.bind_some]
  induction names with
  | nil => rfl
  | cons name names ih =>
    rw [List.mapM_cons, memberOnce?_of_nodup hnodup, ih]
    rfl

/-! ## Each kind of structure -/

/-- Something is loaded from the snapshot of a value exactly if JSON has all floats in it and there
are levels enough, and that is the value itself where its doubles are read back exactly. -/
def Loads (v : Value) : Prop :=
  ∀ levels, Recovers (value? levels v.toSnapshot.toNode) v (∀ u ∈ v.values, u.ReadsExactly)
    ((∀ u ∈ v.values, u.Finite) ∧ v.toSnapshot.depth ≤ levels)

/-- The fields of an item, of which the key is left out where there is none. -/
theorem fields?_itemJson (key : Option String) (v : Json) :
    fields? ["key", "value"] (itemJson key v).toNode =
      some [key.map fun key => (Json.string key).toNode, some v.toNode] := by
  cases key with
  | none => exact fields?_object (by simp [keys]) _
  | some key => exact fields?_object (by simp [keys]) _

/-- A key that is left out is read as none, and any other as itself. -/
theorem key?_toNode (key : Option String) :
    key? ((key.map fun key => (Json.string key).toNode).getD .null) = some key := by
  cases key with
  | none => rfl
  | some key =>
    show (Part.text? (key.toList.map Part.ofChar)).map some = some (some key)
    rw [Json.text?_ofChar, Option.map_some]

theorem depth_itemJson (key : Option String) (v : Json) :
    (itemJson key v).depth = v.depth + 1 := by
  cases key with
  | none => simp [itemJson, Json.depth, Json.memberDepth]
  | some key => simp [itemJson, Json.depth, Json.memberDepth]

/-- An item takes one level, and is loaded with its key as soon as its value is. -/
theorem item?_toSnapshot {d : Item} (h : Loads d.value) (levels : Nat) :
    Recovers (item? levels d.toSnapshot.toNode) d (∀ u ∈ d.value.values, u.ReadsExactly)
      ((∀ u ∈ d.value.values, u.Finite) ∧ d.toSnapshot.depth ≤ levels) := by
  obtain ⟨key, v⟩ := d
  rw [Item.toSnapshot, depth_itemJson]
  cases levels with
  | zero => exact .refused _ (by omega)
  | succ levels =>
    have hload : item? (levels + 1) (itemJson key v.toSnapshot).toNode =
        (value? levels v.toSnapshot.toNode).map (Item.mk key) := by
      rw [item?, fields?_itemJson, Option.bind_eq_bind, Option.bind_some]
      dsimp only
      rw [key?_toNode, Option.bind_eq_bind, Option.bind_some]
      cases value? levels v.toSnapshot.toNode <;> rfl
    rw [hload, Nat.add_le_add_iff_right]
    exact (h levels).map (Item.mk key)

/-- A list is loaded exactly if every item in it is. -/
theorem list?_toSnapshot {ds : List Item} (h : ∀ d ∈ ds, Loads d.value) (levels : Nat) :
    Recovers (list? levels (Json.array (ds.map Item.toSnapshot)).toNode) ds
      (∀ d ∈ ds, ∀ u ∈ d.value.values, u.ReadsExactly)
      ((∀ d ∈ ds, ∀ u ∈ d.value.values, u.Finite) ∧
        (Json.array (ds.map Item.toSnapshot)).depth ≤ levels) := by
  rw [Json.toNode, Json.itemNodes_eq, List.map_map, Json.depth]
  cases levels with
  | zero => exact .refused _ (by omega)
  | succ levels =>
    rw [list?, Nat.add_le_add_iff_right, Json.itemDepth_le, List.forall_mem_map, ← forall₂_and]
    exact .mapM fun d hd => item?_toSnapshot (h d hd) levels

/-- The arrays of entries lie side by side, one level inside the group. -/
theorem depth_groupJson (id : String) (named anonymous : List Json) :
    (groupJson id named anonymous).depth =
      max (Json.array named).depth (Json.array anonymous).depth + 1 := by
  simp only [groupJson, Json.depth, Json.memberDepth]
  omega

/-- **A group** is loaded from the entries of its two lists, added to a group with its id. -/
theorem group?_toSnapshot {g : Group} (hid : g.id ≠ "") (hkeys : (keys g.named).Nodup)
    (hentries : ∀ d ∈ g.entries, Loads d.value) (levels : Nat) :
    Recovers (group? levels g.toSnapshot.toNode) g (∀ u ∈ g.values, u.ReadsExactly)
      ((∀ u ∈ g.values, u.Finite) ∧ g.toSnapshot.depth ≤ levels) := by
  rw [Group.toSnapshot_eq, depth_groupJson]
  cases levels with
  | zero => exact .refused _ (by omega)
  | succ levels =>
    have hfields : fields? ["id", "named", "anonymous"] (groupJson g.id
        (g.namedItems.map Item.toSnapshot) (g.anonymousItems.map Item.toSnapshot)).toNode =
          some [some (Json.string g.id).toNode,
            some (Json.array (g.namedItems.map Item.toSnapshot)).toNode,
            some (Json.array (g.anonymousItems.map Item.toSnapshot)).toNode] :=
      fields?_object (by simp [keys]) _
    have htext : text? (Json.string g.id).toNode = some g.id := Json.text?_ofChar g.id
    have hinside : ∀ P : Value → Prop, (∀ u ∈ g.values, P u) ↔
        (∀ d ∈ g.namedItems, ∀ u ∈ d.value.values, P u) ∧
          ∀ d ∈ g.anonymousItems, ∀ u ∈ d.value.values, P u := by
      intro P
      rw [forall_values_inside, Group.namedItems, Group.anonymousItems, List.forall_mem_map,
        List.forall_mem_map]
      exact and_comm
    have hadd := Group.addAll_entries hid hkeys
    rw [Group.entries, List.forall_mem_append] at hentries
    rw [Group.entries] at hadd
    -- the group is the entries of both lists, added to nothing
    have hboth := (list?_toSnapshot hentries.1 levels).both (list?_toSnapshot hentries.2 levels)
      fun named anonymous => (Group.ofId g.id).addAll (named ++ anonymous)
    rw [hadd] at hboth
    have hload : group? (levels + 1) (groupJson g.id (g.namedItems.map Item.toSnapshot)
        (g.anonymousItems.map Item.toSnapshot)).toNode =
          (list? levels (Json.array (g.namedItems.map Item.toSnapshot)).toNode).bind fun named =>
            (list? levels (Json.array (g.anonymousItems.map Item.toSnapshot)).toNode).map
              fun anonymous => (Group.ofId g.id).addAll (named ++ anonymous) := by
      rw [group?, hfields, Option.bind_eq_bind, Option.bind_some]
      dsimp only
      rw [htext, Option.bind_eq_bind, Option.bind_some]
      cases list? levels (Json.array (g.namedItems.map Item.toSnapshot)).toNode <;>
        cases list? levels (Json.array (g.anonymousItems.map Item.toSnapshot)).toNode <;> rfl
    rw [hload]
    refine hboth.imp (hinside _).mp ?_
    rw [hinside, Nat.add_le_add_iff_right, Nat.max_le]
    exact and_and_and_comm

/-- An array is an object around its list, which takes one level more. -/
theorem array?_toSnapshot {items : List Item} (h : ∀ d ∈ items, Loads d.value) (levels : Nat) :
    Recovers (array? levels (Json.object [("items", .array (Items.toSnapshot items))]).toNode)
      items (∀ d ∈ items, ∀ u ∈ d.value.values, u.ReadsExactly)
      ((∀ d ∈ items, ∀ u ∈ d.value.values, u.Finite) ∧
        (Json.object [("items", .array (Items.toSnapshot items))]).depth ≤ levels) := by
  have hdepth : (Json.object [("items", .array (Items.toSnapshot items))]).depth =
      (Json.array (items.map Item.toSnapshot)).depth + 1 := by
    simp [Json.depth, Json.memberDepth, Items.toSnapshot_eq]
  have hfields : fields? ["items"] (Json.object [("items",
      .array (Items.toSnapshot items))]).toNode =
        some [some (Json.array (items.map Item.toSnapshot)).toNode] := by
    rw [← Items.toSnapshot_eq]
    exact fields?_object (by simp [keys]) _
  rw [hdepth]
  cases levels with
  | zero => exact .refused _ (by omega)
  | succ levels =>
    rw [array?, hfields, Option.bind_eq_bind, Option.bind_some, Nat.add_le_add_iff_right]
    exact list?_toSnapshot h levels

/-! ## Values -/

theorem kind?_name (kind : Kind) : kind? kind.name = some kind := by
  cases kind <;> decide

/-- What is loaded from under the name of a kind. -/
def variant? (levels : Nat) : Kind → Node → Option Value
  | .group, node => (group? levels node).map Value.group
  | .array, node => (array? levels node).map Value.array
  | kind, node => scalar? kind node

/-- A kind is found by its name, and what is under the name decides. -/
theorem value?_variant (kind : Kind) (v : Json) (levels : Nat) :
    value? (levels + 1) (variant kind v).toNode = variant? levels kind v.toNode := by
  rw [variant, Json.toNode, Json.memberNodes, Json.memberNodes, value?, Json.text?_ofChar,
    Option.bind_eq_bind, Option.bind_some, kind?_name, Option.bind_eq_bind, Option.bind_some]
  cases kind with
  | group =>
    rw [variant?]
    cases group? levels v.toNode <;> rfl
  | array =>
    rw [variant?]
    cases array? levels v.toNode <;> rfl
  | null | string | integer | float | bool => rfl

/-- The name of the kind takes one level. -/
theorem loads_variant {v : Value} {kind : Kind} {json : Json}
    (hv : v.toSnapshot = variant kind json)
    (h : ∀ levels, Recovers (variant? levels kind json.toNode) v
      (∀ u ∈ v.values, u.ReadsExactly) ((∀ u ∈ v.values, u.Finite) ∧ json.depth ≤ levels)) :
    Loads v := by
  intro levels
  have hdepth : (variant kind json).depth = json.depth + 1 := by
    simp [variant, Json.depth, Json.memberDepth]
  rw [hv, hdepth]
  cases levels with
  | zero =>
    simp only [variant, Json.toNode, Json.memberNodes, value?]
    exact .refused _ (by omega)
  | succ levels =>
    rw [value?_variant, Nat.add_le_add_iff_right]
    exact h levels

/-- A scalar that its JSON says everything of. -/
theorem loads_scalar {v : Value} {kind : Kind} {json : Json}
    (hv : v.toSnapshot = variant kind json)
    (hload : ∀ levels, variant? levels kind json.toNode = some v)
    (hdepth : json.depth = 0) (hfinite : ∀ u ∈ v.values, u.Finite) : Loads v := by
  apply loads_variant hv
  intro levels
  rw [hload, hdepth]
  exact .self v ⟨hfinite, Nat.zero_le _⟩

theorem loads_string (s : String) : Loads (.string s) := by
  apply loads_scalar rfl _ rfl (by simp [Value.values, Value.Finite])
  intro levels
  show (Part.text? (s.toList.map Part.ofChar)).map Value.string = _
  rw [Json.text?_ofChar, Option.map_some]

theorem loads_integer (i : Int64) : Loads (.integer i) := by
  apply loads_scalar rfl _ rfl (by simp [Value.values, Value.Finite])
  intro levels
  show (Json.integer? (Numeral.ofInt64 i)).map Value.integer = _
  rw [Json.integer?_ofInt64, Option.map_some]

theorem loads_float (x : Binary64) : Loads (.float x) := by
  apply loads_variant rfl
  intro levels
  rw [Json.toNode, Value.values, List.forall_mem_singleton, List.forall_mem_singleton]
  by_cases hfinite : x.isFinite = true
  · rw [if_pos hfinite]
    exact ((Json.recovers_float hfinite).map Value.float).imp id
      (iff_of_true trivial ⟨hfinite, Nat.zero_le _⟩)
  · -- what JSON has no number for is saved as null, which is no number when it is loaded
    rw [if_neg hfinite]
    exact .refused _ fun hfits => hfinite hfits.1

/-- **What is loaded from the snapshot of a value**, whatever it holds. -/
theorem loads_of_coherent (v : Value) (h : ∀ w ∈ v.values, w.Coherent) : Loads v := by
  induction v using Value.induction with
  | null =>
    -- null is its name alone, which takes no level
    intro levels
    have hload : value? levels Value.null.toSnapshot.toNode = some .null := by
      rw [Value.toSnapshot, Json.toNode, value?, Json.text?_ofChar]
      rfl
    rw [hload]
    exact .self _ ⟨by simp [Value.values, Value.Finite], Nat.zero_le _⟩
  | string s => exact loads_string s
  | integer i => exact loads_integer i
  | float x => exact loads_float x
  | bool b => exact loads_scalar rfl (fun _ => rfl) rfl (by simp [Value.values, Value.Finite])
  | group g ihanonymous ihnamed =>
    obtain ⟨⟨hid, hkeys⟩, hinside⟩ := forall_values_group.mp h
    obtain ⟨hanonymous, hnamed⟩ := forall_values_inside.mp hinside
    have hentries : ∀ d ∈ g.entries, Loads d.value :=
      Group.forall_entries.mpr ⟨fun v hv => ihanonymous v hv (hanonymous v hv),
        fun entry hentry => ihnamed entry hentry (hnamed entry hentry)⟩
    refine loads_variant rfl ?_
    intro levels
    rw [variant?, forall_values_group, forall_values_group]
    refine ((group?_toSnapshot hid hkeys hentries levels).map Value.group).imp And.right ?_
    rw [Value.Finite, true_and]
  | array items ih =>
    obtain ⟨-, hitems⟩ := forall_values_array.mp h
    refine loads_variant rfl ?_
    intro levels
    rw [variant?, forall_values_array, forall_values_array]
    have hlist := array?_toSnapshot (fun d hd => ih d hd (hitems d hd)) levels
    refine (hlist.map Value.array).imp And.right ?_
    rw [Value.Finite, true_and]

/-! ## Documents -/

/-- The top-level groups lie in a list, one level inside the document. -/
theorem groups?_toSnapshot {doc : Document} (h : ∀ w ∈ doc.values, w.Coherent) (levels : Nat) :
    Recovers (groups? levels (Json.array (doc.map Group.toSnapshot)).toNode) doc
      (∀ u ∈ doc.values, u.ReadsExactly)
      ((∀ u ∈ doc.values, u.Finite) ∧
        (Json.array (doc.map Group.toSnapshot)).depth ≤ levels) := by
  rw [Json.toNode, Json.itemNodes_eq, List.map_map, Json.depth]
  cases levels with
  | zero => exact .refused _ (by omega)
  | succ levels =>
    have hgroup : ∀ g ∈ doc, Recovers (group? levels ((Json.toNode ∘ Group.toSnapshot) g)) g
        (∀ u ∈ g.values, u.ReadsExactly)
        ((∀ u ∈ g.values, u.Finite) ∧ g.toSnapshot.depth ≤ levels) := by
      intro g hg
      obtain ⟨⟨hid, hkeys⟩, hentries⟩ :=
        forall_values_entries.mp (forall_values_document.mp h g hg)
      exact group?_toSnapshot hid hkeys
        (fun d hd => loads_of_coherent d.value (hentries d hd)) levels
    -- the top groups are asked for nothing themselves
    have hfinite : (∀ u ∈ doc.values, u.Finite) ↔ ∀ g ∈ doc, ∀ u ∈ g.values, u.Finite := by
      simp only [forall_values_document, forall_values_group, Value.Finite, true_and]
    have hexact : (∀ u ∈ doc.values, u.ReadsExactly) ↔
        ∀ g ∈ doc, ∀ u ∈ g.values, u.ReadsExactly := by
      simp only [forall_values_document, forall_values_group, Value.ReadsExactly, true_and]
    rw [groups?, Nat.add_le_add_iff_right, Json.itemDepth_le, List.forall_mem_map, hfinite, hexact,
      ← forall₂_and]
    exact .mapM hgroup

end Snapshot

namespace Document

/-- The JSON that a document is saved as. -/
def snapshotJson (doc : Document) : Json :=
  .object [("top_groups", .array (doc.map Group.toSnapshot))]

/-- **What is loaded from the snapshot of a document**: something exactly if all floats are finite
and there are levels enough, and that is the document itself where its doubles are read back
exactly. -/
theorem ofSnapshot?_toSnapshot {doc : Document} (h : ∀ w ∈ doc.values, w.Coherent) :
    Recovers (ofSnapshot? doc.toSnapshot) doc (∀ u ∈ doc.values, u.ReadsExactly)
      ((∀ u ∈ doc.values, u.Finite) ∧ doc.snapshotJson.depth ≤ Json.maxDepth) := by
  have hfields : Snapshot.fields? ["top_groups"] doc.snapshotJson.toNode =
      some [some (Json.array (doc.map Group.toSnapshot)).toNode] :=
    Snapshot.fields?_object (by simp [keys]) _
  have hdepth : doc.snapshotJson.depth = (Json.array (doc.map Group.toSnapshot)).depth + 1 := by
    simp [snapshotJson, Json.depth, Json.memberDepth]
  have hload : ofSnapshot? doc.toSnapshot =
      Snapshot.groups? 126 (Json.array (doc.map Group.toSnapshot)).toNode := by
    rw [ofSnapshot?, toSnapshot, Json.ofText?_text_node, Option.bind_eq_bind, Option.bind_some,
      ← snapshotJson, Json.maxDepth, Snapshot.document?, hfields]
    rfl
  rw [hload, hdepth, Json.maxDepth, Nat.add_le_add_iff_right]
  exact Snapshot.groups?_toSnapshot h 126

end Document

end DataLisp
