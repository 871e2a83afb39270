/-
The keys of array items.

An array is meant to hold items without keys, and the operations on arrays see to that: whatever
they are given, they drop its key. Reading a text and importing host data go the same way. Loading a
snapshot does not: it takes the items of an array as they are listed, and a key that is listed with
one stays.

So where a document is put together from what was read, imported and loaded, an item with a key is
one that was loaded with it (`Assembled.itemsFrom`). No operation can give an item a key, and none
needs to be asked whether it keeps one.

The keys are lost when the document is written, since the writer goes by the values of an array
only. A document and the same without these keys (`Document.keyless`) have one text, so the latter
is what is read from it. That is the document itself exactly if no item in it has a key.
-/
import DataLisp.Proofs.Origins

set_option autoImplicit false

namespace DataLisp

/-! ## Documents that are put together -/

/-- **All ways to come by a part of a document** with the standard expressions, when the given
documents have been loaded. -/
inductive Assembled (loaded : List Document) : Part → Prop where
  /-- By the operations alone. -/
  | made {part : Part} (h : Made part) : Assembled loaded part
  | read {text : String} {doc : Document} {g : Group} (hdoc : Document.read text = .ok doc)
      (hg : g ∈ doc) : Assembled loaded (.group g)
  | imported {root : List (String × HostValue)} {g : Group}
      (hg : g ∈ (Document.ofHost root).value) : Assembled loaded (.group g)
  | loaded {doc : Document} {g : Group} (hdoc : doc ∈ loaded) (hg : g ∈ doc) :
      Assembled loaded (.group g)
  -- taking apart
  | groupOf {g : Group} (h : Assembled loaded (.value (.group g))) : Assembled loaded (.group g)
  | entryOf {g : Group} {d : Item} (h : Assembled loaded (.group g)) (hd : d ∈ g.entries) :
      Assembled loaded (.value d.value)
  | itemsOf {items : List Item} (h : Assembled loaded (.value (.array items))) :
      Assembled loaded (.items items)
  | itemOf {items : List Item} {d : Item} (h : Assembled loaded (.items items)) (hd : d ∈ items) :
      Assembled loaded (.value d.value)
  -- putting together
  | group {g : Group} (hg : Assembled loaded (.group g)) : Assembled loaded (.value (.group g))
  | array {items : List Item} (h : Assembled loaded (.items items)) :
      Assembled loaded (.value (.array items))
  | setId {g : Group} (hg : Assembled loaded (.group g)) (id : String) :
      Assembled loaded (.group (g.setId id))
  | add {g : Group} {d : Item} (hg : Assembled loaded (.group g))
      (hd : Assembled loaded (.value d.value)) : Assembled loaded (.group (g.add d))
  | pushItem {items : List Item} {d : Item} (h : Assembled loaded (.items items))
      (hd : Assembled loaded (.value d.value)) : Assembled loaded (.items (Items.push items d))
  | setItem {items : List Item} {d : Item} (h : Assembled loaded (.items items)) (index : Nat)
      (hd : Assembled loaded (.value d.value)) :
      Assembled loaded (.items (Items.set items index d))
  | collect {items : List Item} (h : ∀ d ∈ items, Assembled loaded (.value d.value)) :
      Assembled loaded (.items (Items.collect items))

/-- A document whose groups are put together so. -/
def Document.Assembled (loaded : List Document) (doc : Document) : Prop :=
  ∀ g ∈ doc, DataLisp.Assembled loaded (.group g)

variable {loaded : List Document} {part : Part}

/-- Nothing is new in this but that the documents are named. -/
theorem Assembled.obtained (hloaded : ∀ doc ∈ loaded, ∃ text, Document.ofSnapshot? text = some doc)
    (h : Assembled loaded part) : Obtained [] part := by
  induction h with
  | made h => exact .made h
  | read hdoc hg => exact Document.obtained_read hdoc _ hg
  | imported hg => exact .imported hg
  | loaded hdoc hg =>
    obtain ⟨text, htext⟩ := hloaded _ hdoc
    exact .loaded htext hg
  | groupOf _ ih => exact .groupOf ih
  | entryOf _ hd ih => exact .entryOf ih hd
  | itemsOf _ ih => exact .itemsOf ih
  | itemOf _ hd ih => exact .itemOf ih hd
  | group _ ih => exact .group ih
  | array _ ih => exact .array ih
  | setId _ id ih => exact .setId ih id
  | add _ _ ihg ihd => exact .add ihg ihd
  | pushItem _ _ ih ihd => exact .pushItem ih ihd
  | setItem _ index _ ih ihd => exact .setItem ih index ihd
  | collect _ ih => exact .collect ih

/-! ## Where keys come from -/

/-- Whether an item stands in an array of one of the documents, with the same key and value. -/
def Item.IsFrom (loaded : List Document) (d : Item) : Prop :=
  ∃ doc ∈ loaded, ∃ items, Value.array items ∈ doc.values ∧ d ∈ items

/-- Whether a single value is no array, or one whose items have no keys apart from those that are
from one of the documents. -/
def Value.ItemsFrom (loaded : List Document) : Value → Prop
  | .array items => ∀ d ∈ items, d.key = none ∨ d.IsFrom loaded
  | .null | .string _ | .integer _ | .float _ | .bool _ | .group _ => True

/-- The same for a part, with everything inside it. -/
def Part.ItemsFrom (loaded : List Document) : Part → Prop
  | value v => ∀ w ∈ v.values, w.ItemsFrom loaded
  | group g => ∀ w ∈ (Value.group g).values, w.ItemsFrom loaded
  | items ds => ∀ d ∈ ds,
      (d.key = none ∨ d.IsFrom loaded) ∧ ∀ w ∈ d.value.values, w.ItemsFrom loaded

/-- Additions to a group bring in no array, and arrays of items without keys ask for nothing. -/
theorem Value.kept_itemsFrom (loaded : List Document) : Kept (ItemsFrom loaded) where
  null := trivial
  bool _ := trivial
  ofId _ := trivial
  add _ _ _ := trivial
  array _ h := fun d hd => .inl (h d hd)

/-- A well-made array has no keys to account for. -/
theorem Value.WellMade.itemsFrom {v : Value} (h : v.WellMade) : v.ItemsFrom loaded := by
  cases v with
  | array items => exact fun d hd => .inl (h d hd)
  | null | string _ | integer _ | float _ | bool _ | group _ => trivial

/-- So nothing that is made by the operations has. -/
theorem Made.itemsFrom (h : Made part) : part.ItemsFrom loaded := by
  have hmade := h.wellMade
  cases part with
  | value v => exact fun w hw => (hmade w hw).itemsFrom
  | group g => exact fun w hw => (hmade w hw).itemsFrom
  | items ds => exact fun d hd => ⟨.inl (hmade d hd).1, fun w hw => ((hmade d hd).2 w hw).itemsFrom⟩

/-- **Only loading brings in items with keys**, and afterwards they are never changed. -/
theorem Assembled.itemsFrom (h : Assembled loaded part) : part.ItemsFrom loaded := by
  induction h with
  | made h => exact h.itemsFrom
  | @read _ _ g hdoc hg =>
    have hmade := (Document.fit_of_readWith keepsFit_standard hdoc g hg).made
    exact fun w hw => (hmade w hw).itemsFrom
  | @imported root g hg =>
    have hmade := forall_values_document.mp (Document.wellMade_ofHost root) g hg
    exact fun w hw => (hmade w hw).1.itemsFrom
  | @loaded doc g hdoc hg =>
    intro w hw
    cases w with
    | array items =>
      have hmem : Value.array items ∈ doc.values := List.mem_flatMap.mpr ⟨g, hg, hw⟩
      exact fun d hd => .inr ⟨doc, hdoc, items, hmem, hd⟩
    | null | string _ | integer _ | float _ | bool _ | group _ => trivial
  | groupOf _ ih => exact ih
  | entryOf _ hd ih => exact (forall_values_entries.mp ih).2 _ hd
  | itemsOf _ ih =>
    obtain ⟨hkeys, hitems⟩ := forall_values_array.mp ih
    exact fun d hd => ⟨hkeys d hd, hitems d hd⟩
  | itemOf _ hd ih => exact (ih _ hd).2
  | group _ ih => exact ih
  | array _ ih =>
    exact forall_values_array.mpr ⟨fun d hd => (ih d hd).1, fun d hd => (ih d hd).2⟩
  | setId _ id ih =>
    rw [Part.ItemsFrom, forall_values_group, Group.values_setId]
    exact ⟨trivial, (forall_values_group.mp ih).2⟩
  | add _ _ ihg ihd => exact (Value.kept_itemsFrom loaded).forall_add ihg ihd
  -- the operations on arrays drop the key of what they put in
  | pushItem _ _ ih ihd => exact Items.forall_push ih ⟨.inl rfl, ihd⟩
  | setItem _ index _ ih ihd => exact Items.forall_set ih index ⟨.inl rfl, ihd⟩
  | collect _ ih => exact List.forall_mem_map.mpr fun d hd => ⟨.inl rfl, ih d hd⟩

/-! ## Without keys -/

mutual

/-- A value in which the items of all arrays have lost their keys. -/
def Value.keyless : Value → Value
  | .group g => .group g.keyless
  | .array items => .array (Items.keyless items)
  | .null => .null
  | .string s => .string s
  | .integer i => .integer i
  | .float x => .float x
  | .bool b => .bool b

/-- The same inside a group. -/
def Group.keyless : Group → Group
  | ⟨id, named, anonymous⟩ => ⟨id, Named.keyless named, Values.keyless anonymous⟩

/-- The same inside named entries, which have their keys by right. -/
def Named.keyless : List (String × Value) → List (String × Value)
  | [] => []
  | (key, v) :: rest => (key, v.keyless) :: Named.keyless rest

/-- The same inside anonymous entries. -/
def Values.keyless : List Value → List Value
  | [] => []
  | v :: rest => v.keyless :: Values.keyless rest

/-- The items of an array without their keys. -/
def Items.keyless : List Item → List Item
  | [] => []
  | ⟨_, v⟩ :: rest => ⟨none, v.keyless⟩ :: Items.keyless rest

end

/-- A document in which the items of all arrays have lost their keys. -/
def Document.keyless (doc : Document) : Document :=
  doc.map Group.keyless

theorem Named.keyless_eq (named : List (String × Value)) :
    Named.keyless named = OrderedMap.mapValues Value.keyless named := by
  induction named with
  | nil => rfl
  | cons entry rest ih =>
    rw [Named.keyless, ih]
    rfl

theorem Values.keyless_eq (vs : List Value) : Values.keyless vs = vs.map Value.keyless := by
  induction vs with
  | nil => rfl
  | cons v rest ih => rw [Values.keyless, ih, List.map_cons]

theorem Items.keyless_eq (items : List Item) :
    Items.keyless items = items.map fun d => .ofValue d.value.keyless := by
  induction items with
  | nil => rfl
  | cons d rest ih =>
    obtain ⟨key, v⟩ := d
    rw [Items.keyless, ih]
    rfl

/-- A group keeps its own keys; only those of items inside it are left out. -/
theorem Group.keyless_eq (g : Group) : g.keyless =
    ⟨g.id, OrderedMap.mapValues Value.keyless g.named, g.anonymous.map Value.keyless⟩ := by
  obtain ⟨id, named, anonymous⟩ := g
  rw [Group.keyless, Named.keyless_eq, Values.keyless_eq]

/-- **A coherent value without its keys is well made.** -/
theorem Value.wellMade_keyless (v : Value) (h : ∀ w ∈ v.values, w.Coherent) :
    ∀ w ∈ v.keyless.values, w.WellMade := by
  induction v using Value.induction with
  | null | string _ | integer _ | float _ | bool _ => exact List.forall_mem_singleton.mpr trivial
  | group g ihanonymous ihnamed =>
    obtain ⟨⟨hid, hkeys⟩, hinside⟩ := forall_values_group.mp h
    obtain ⟨hanonymous, hnamed⟩ := forall_values_inside.mp hinside
    rw [keyless, Group.keyless_eq, forall_values_group, forall_values_inside]
    refine ⟨⟨hid, ?_⟩, ?_, ?_⟩
    · rw [OrderedMap.keys_mapValues]
      exact hkeys
    · exact List.forall_mem_map.mpr fun v hv => ihanonymous v hv (hanonymous v hv)
    · exact List.forall_mem_map.mpr fun entry hentry => ihnamed entry hentry (hnamed entry hentry)
  | array items ih =>
    obtain ⟨-, hitems⟩ := forall_values_array.mp h
    rw [keyless, Items.keyless_eq, forall_values_array]
    exact ⟨List.forall_mem_map.mpr fun _ _ => rfl,
      List.forall_mem_map.mpr fun d hd => ih d hd (hitems d hd)⟩

/-- What is well made has no keys to lose. -/
theorem Value.keyless_of_wellMade (v : Value) (h : ∀ w ∈ v.values, w.WellMade) :
    v.keyless = v := by
  induction v using Value.induction with
  | null | string _ | integer _ | float _ | bool _ => rfl
  | group g ihanonymous ihnamed =>
    obtain ⟨-, hinside⟩ := forall_values_group.mp h
    obtain ⟨hanonymous, hnamed⟩ := forall_values_inside.mp hinside
    rw [keyless, Group.keyless_eq, OrderedMap.mapValues_eq_self fun entry hentry =>
        ihnamed entry hentry (hnamed entry hentry),
      List.map_congr_left fun v hv => ihanonymous v hv (hanonymous v hv), List.map_id']
    cases g
    rfl
  | array items ih =>
    obtain ⟨hkeys, hitems⟩ := forall_values_array.mp h
    rw [keyless, Items.keyless_eq]
    refine congrArg array ((List.map_congr_left ?_).trans (List.map_id items))
    rintro ⟨key, v⟩ hd
    obtain rfl : key = none := hkeys _ hd
    rw [Item.ofValue, ih _ hd (hitems _ hd)]
    rfl

/-! ## The text of arrays -/

mutual

/-- The writer and the count of levels do not look at the keys of items. -/
theorem Value.written_keyless : ∀ v : Value, v.keyless.offences = v.offences ∧
    v.keyless.depth = v.depth ∧
    ∀ indent depth, v.keyless.pieces indent depth = v.pieces indent depth
  | .group g => by
    obtain ⟨hoffences, hdepth, hpieces⟩ := Group.written_keyless g
    exact ⟨hoffences, congrArg Nat.succ hdepth, hpieces⟩
  | .array items => by
    obtain ⟨hoffences, hdepth, hpieces⟩ := Items.written_keyless items
    refine ⟨hoffences, congrArg Nat.succ hdepth, ?_⟩
    intro indent depth
    rw [Value.keyless, Value.pieces, hpieces, Value.pieces]
  | .null | .string _ | .integer _ | .float _ | .bool _ => ⟨rfl, rfl, fun _ _ => rfl⟩

theorem Group.written_keyless : ∀ g : Group, g.keyless.offences = g.offences ∧
    g.keyless.depth = g.depth ∧
    ∀ indent depth, g.keyless.pieces indent depth = g.pieces indent depth
  | ⟨id, named, anonymous⟩ => by
    obtain ⟨hoffences, hdepth, hpieces⟩ := Named.written_keyless named
    obtain ⟨hoffences', hdepth', hpieces'⟩ := Values.written_keyless anonymous
    refine ⟨?_, ?_, ?_⟩
    · rw [Group.keyless, Group.offences, hoffences, hoffences', Group.offences]
    · rw [Group.keyless, Group.depth, hdepth, hdepth', Group.depth]
    · intro indent depth
      rw [Group.keyless, Group.pieces, hpieces, hpieces', Group.pieces]

theorem Named.written_keyless : ∀ named : List (String × Value),
    Named.offences (Named.keyless named) = Named.offences named ∧
    Named.depth (Named.keyless named) = Named.depth named ∧
    ∀ indent depth,
      Named.pieces indent depth (Named.keyless named) = Named.pieces indent depth named
  | [] => ⟨rfl, rfl, fun _ _ => rfl⟩
  | (key, v) :: rest => by
    obtain ⟨hoffences, hdepth, hpieces⟩ := Value.written_keyless v
    obtain ⟨hoffences', hdepth', hpieces'⟩ := Named.written_keyless rest
    refine ⟨?_, ?_, ?_⟩
    · rw [Named.keyless, Named.offences, hoffences, hoffences', Named.offences]
    · rw [Named.keyless, Named.depth, hdepth, hdepth', Named.depth]
    · intro indent depth
      rw [Named.keyless, Named.pieces, hpieces, hpieces', Named.pieces]

theorem Values.written_keyless : ∀ vs : List Value,
    Values.offences (Values.keyless vs) = Values.offences vs ∧
    Values.depth (Values.keyless vs) = Values.depth vs ∧
    ∀ indent depth, Values.pieces indent depth (Values.keyless vs) = Values.pieces indent depth vs
  | [] => ⟨rfl, rfl, fun _ _ => rfl⟩
  | v :: rest => by
    obtain ⟨hoffences, hdepth, hpieces⟩ := Value.written_keyless v
    obtain ⟨hoffences', hdepth', hpieces'⟩ := Values.written_keyless rest
    refine ⟨?_, ?_, ?_⟩
    · rw [Values.keyless, Values.offences, hoffences, hoffences', Values.offences]
    · rw [Values.keyless, Values.depth, hdepth, hdepth', Values.depth]
    · intro indent depth
      rw [Values.keyless, Values.pieces, hpieces, hpieces', Values.pieces]

theorem Items.written_keyless : ∀ items : List Item,
    Items.offences (Items.keyless items) = Items.offences items ∧
    Items.depth (Items.keyless items) = Items.depth items ∧
    ∀ indent depth,
      Items.pieces indent depth (Items.keyless items) = Items.pieces indent depth items
  | [] => ⟨rfl, rfl, fun _ _ => rfl⟩
  | ⟨key, v⟩ :: rest => by
    obtain ⟨hoffences, hdepth, hpieces⟩ := Value.written_keyless v
    obtain ⟨hoffences', hdepth', hpieces'⟩ := Items.written_keyless rest
    refine ⟨?_, ?_, ?_⟩
    · rw [Items.keyless, Items.offences, hoffences, hoffences', Items.offences]
    · rw [Items.keyless, Items.depth, hdepth, hdepth', Items.depth]
    · intro indent depth
      rw [Items.keyless, Items.pieces, hpieces, hpieces', Items.pieces]

end

namespace Document

/-- **A document and the same without keys have one text**, or the same first offence. -/
theorem write_keyless (doc : Document) (indent : Nat) :
    doc.keyless.write indent = doc.write indent := by
  have hoffences : doc.keyless.offences = doc.offences := by
    rw [offences, offences, keyless, List.flatMap_map]
    exact List.flatMap_congr fun g _ => g.written_keyless.1
  have hpieces : doc.keyless.pieces indent = doc.pieces indent := by
    rw [pieces, pieces, keyless, List.flatMap_map]
    exact List.flatMap_congr fun g _ => by rw [g.written_keyless.2.2]
  rw [write, hoffences, write, layout, layout, hpieces]

/-- Without the keys of items, what is coherent is well made. -/
theorem wellMade_keyless {doc : Document} (h : ∀ w ∈ doc.values, w.Coherent) :
    doc.keyless.WellMade := by
  rw [forall_values_document] at h
  exact forall_values_document.mpr
    (List.forall_mem_map.mpr fun g hg => (Value.group g).wellMade_keyless (h g hg))

theorem keyless_of_wellMade {doc : Document} (h : doc.WellMade) : doc.keyless = doc := by
  refine (List.map_congr_left ?_).trans (List.map_id doc)
  intro g hg
  have hself := (Value.group g).keyless_of_wellMade (forall_values_document.mp h g hg)
  exact Value.group.inj hself

/-- **The keys of array items**, in a document that is put together from what was read, imported
and loaded. An item with a key is one that was loaded with it, as it stands. Where the document has
a text and nests no deeper than allowed, what is read from the text is the document with the keys of
all items dropped; and this is the document itself exactly if no item has a key. So it is, if
nothing was loaded in which an item has one. -/
theorem items_of_assembled {loaded : List Document} {doc : Document}
    (hloaded : ∀ source ∈ loaded, ∃ text, ofSnapshot? text = some source)
    (h : doc.Assembled loaded) :
    (∀ items, Value.array items ∈ doc.values → ∀ d ∈ items, d.key = none ∨
      ∃ source ∈ loaded, ∃ others, Value.array others ∈ source.values ∧ d ∈ others) ∧
    (∀ indent text, doc.write indent = .ok text → (∀ g ∈ doc, g.depth ≤ Tree.maxDepth) →
      read text = .ok doc.keyless) ∧
    (doc.keyless = doc ↔ ∀ items, Value.array items ∈ doc.values → ∀ d ∈ items, d.key = none) ∧
    ((∀ source ∈ loaded, ∀ items, Value.array items ∈ source.values → ∀ d ∈ items, d.key = none) →
      (∀ items, Value.array items ∈ doc.values → ∀ d ∈ items, d.key = none) ∧
      ∀ indent text, doc.write indent = .ok text → (∀ g ∈ doc, g.depth ≤ Tree.maxDepth) →
        read text = .ok doc) := by
  have hcoherent : ∀ w ∈ doc.values, w.Coherent :=
    Obtained.coherent fun g hg => (h g hg).obtained hloaded
  have hitems : ∀ items, Value.array items ∈ doc.values → ∀ d ∈ items, d.key = none ∨
      ∃ source ∈ loaded, ∃ others, Value.array others ∈ source.values ∧ d ∈ others :=
    fun items hmem => forall_values_document.mpr (fun g hg => (h g hg).itemsFrom) _ hmem
  have hback : ∀ indent text, doc.write indent = .ok text →
      (∀ g ∈ doc, g.depth ≤ Tree.maxDepth) → read text = .ok doc.keyless := by
    intro indent text hwrite hdepth
    have hdepth' : ∀ g ∈ doc.keyless, g.depth ≤ Tree.maxDepth := by
      refine List.forall_mem_map.mpr fun g hg => ?_
      rw [g.written_keyless.2.1]
      exact hdepth g hg
    rw [← write_keyless] at hwrite
    exact (readBack_shallow (wellMade_keyless hcoherent) hwrite hdepth' .standard).2.2
  have hsame : doc.keyless = doc ↔
      ∀ items, Value.array items ∈ doc.values → ∀ d ∈ items, d.key = none := by
    constructor
    · intro hself items hmem
      have hmade := wellMade_keyless hcoherent
      rw [hself] at hmade
      exact hmade _ hmem
    · intro hkeys
      apply keyless_of_wellMade
      intro w hw
      cases w with
      | group g => exact hcoherent _ hw
      | array items => exact hkeys items hw
      | null | string _ | integer _ | float _ | bool _ => trivial
  refine ⟨hitems, hback, hsame, ?_⟩
  intro hnone
  have hkeys : ∀ items, Value.array items ∈ doc.values → ∀ d ∈ items, d.key = none := by
    intro items hmem d hd
    rcases hitems items hmem d hd with hkey | ⟨source, hsource, others, hothers, hd⟩
    · exact hkey
    · exact hnone source hsource others hothers d hd
  refine ⟨hkeys, ?_⟩
  intro indent text hwrite hdepth
  rw [hback indent text hwrite hdepth, hsame.mpr hkeys]

theorem loads_keyed : ofSnapshot? (toSnapshot [⟨"a", [], [.array [⟨some "i", .null⟩]]⟩]) =
    some [⟨"a", [], [.array [⟨some "i", .null⟩]]⟩] := by
  refine (ofSnapshot?_toSnapshot ?_).eq_some ?_ ⟨?_, by decide⟩
  · simp [values, Value.values, Group.values, Values.values, Named.values, Items.values,
      Value.Coherent, OrderedMap.keys]
  · simp [values, Value.values, Group.values, Values.values, Named.values, Items.values,
      Value.ReadsExactly]
  · simp [values, Value.values, Group.values, Values.values, Named.values, Items.values,
      Value.Finite]

/-- A loaded group with an item that has a key, to which an entry is pushed. -/
theorem items_of_assembled_pushed :
    ∃ g : Group, g = ⟨"a", [], [.array [⟨some "i", .null⟩]]⟩ ∧
      ofSnapshot? (toSnapshot [g]) = some [g] ∧
      Document.write 2 [g.push (.bool true)] = .ok "(a\n  [null]\n  true\n)\n" ∧
      read "(a\n  [null]\n  true\n)\n" =
        .ok [⟨"a", [], [.array [⟨none, .null⟩], .bool true]⟩] := by
  have hpushed : ∀ g : Group, Assembled [[g]] [g.push (.bool true)] := by
    intro g
    have hg : DataLisp.Assembled [[g]] (.group g) :=
      .loaded (List.mem_singleton_self _) (List.mem_singleton_self _)
    exact List.forall_mem_singleton.mpr (hg.add (d := .ofValue (.bool true)) (.made (.bool true)))
  refine ⟨_, rfl, loads_keyed, rfl, ?_⟩
  exact (items_of_assembled (List.forall_mem_singleton.mpr ⟨_, loads_keyed⟩) (hpushed _)).2.1 2 _
    rfl (by decide)

/-- **An array that is loaded with a key.** The snapshot is accepted, and the document that it gives
has a text, from which another document is read. -/
theorem items_of_loaded_keyed :
    ofSnapshot? ("\x7b\"top_groups\":[\x7b\"id\":\"a\",\"named\":[],\"anonymous\":[" ++
        "\x7b\"value\":\x7b\"Array\":\x7b\"items\":[\x7b\"key\":\"i\",\"value\":\"Null\"\x7d" ++
        "]\x7d\x7d\x7d]\x7d]\x7d") = some [⟨"a", [], [.array [⟨some "i", .null⟩]]⟩] ∧
      Document.write 2 [⟨"a", [], [.array [⟨some "i", .null⟩]]⟩] = .ok "(a\n  [null]\n)\n" ∧
      read "(a\n  [null]\n)\n" = .ok [⟨"a", [], [.array [⟨none, .null⟩]]⟩] ∧
      ([⟨"a", [], [.array [⟨none, .null⟩]]⟩] : Document) ≠
        [⟨"a", [], [.array [⟨some "i", .null⟩]]⟩] := by
  have hsnapshot : "\x7b\"top_groups\":[\x7b\"id\":\"a\",\"named\":[],\"anonymous\":[" ++
      "\x7b\"value\":\x7b\"Array\":\x7b\"items\":[\x7b\"key\":\"i\",\"value\":\"Null\"\x7d" ++
      "]\x7d\x7d\x7d]\x7d]\x7d" = toSnapshot [⟨"a", [], [.array [⟨some "i", .null⟩]]⟩] := by
    decide +kernel
  have hmade : WellMade [⟨"a", [], [.array [⟨none, .null⟩]]⟩] := by
    simp [WellMade, values, Value.values, Group.values, Values.values, Named.values, Items.values,
      Value.WellMade, OrderedMap.keys]
  have hwrite : Document.write 2 [⟨"a", [], [.array [⟨none, .null⟩]]⟩] =
      .ok "(a\n  [null]\n)\n" := rfl
  rw [hsnapshot]
  exact ⟨loads_keyed, rfl, (readBack_shallow hmade hwrite (by decide) .standard).2.2, by simp⟩

end Document

end DataLisp
