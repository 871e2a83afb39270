/-
What a document loses on the way to its host and back.

A host map has names for all its members and one member for each name, so two things cannot
come back as they were: the anonymous entries of a group return as named ones, under their
positions, and of several top groups with one id only the last returns. `Document.normalized`
is the document with exactly these two changes made, and export followed by import is that
and nothing else, for either shape of group (`normalized_of_exchange`).

The whole argument is about `Group.keyed`, the map of a group with its anonymous entries put
in under their positions. Export converts the values of this map and import converts them
back, while the id takes a way of its own, as the reserved member or as the name of a record
type; and both conversions go along with insertion into a map, so neither the order nor the
collisions of keys have to be followed by hand. The hypotheses are those under which the
reserved member cannot be mistaken for an entry, and every import meets them
(`wellMade_ofHost`).
-/
import DataLisp.Host.OfDocument
import DataLisp.Host.ToDocument
import DataLisp.Proofs.Documents
import DataLisp.Proofs.Numerals

set_option autoImplicit false

namespace DataLisp

open OrderedMap

/-! ## Normal documents -/

mutual

/-- A value with the anonymous entries of every group in it under their positions. -/
def Value.normalized : Value → Value
  | .group g => .group g.normalized
  | .array items => .array (Items.normalized items)
  | .null => .null
  | .string s => .string s
  | .integer i => .integer i
  | .float x => .float x
  | .bool b => .bool b

/-- A group with its anonymous entries after the named ones, under their positions; a named
entry that has such a key already is replaced where it stands. -/
def Group.normalized : Group → Group
  | ⟨id, named, anonymous⟩ =>
    ⟨id, insertAll (Named.normalized named) (numbered 0 (Values.normalized anonymous)), []⟩

/-- The same inside named entries. -/
def Named.normalized : List (String × Value) → List (String × Value)
  | [] => []
  | (key, v) :: rest => (key, v.normalized) :: Named.normalized rest

/-- The same inside anonymous entries. -/
def Values.normalized : List Value → List Value
  | [] => []
  | v :: rest => v.normalized :: Values.normalized rest

/-- The same inside the items of an array, which stay as they are themselves. -/
def Items.normalized : List Item → List Item
  | [] => []
  | ⟨key, v⟩ :: rest => ⟨key, v.normalized⟩ :: Items.normalized rest

end

/-- A document with all entries of all groups under keys and with one top group for each id:
the last one that has it, at the place of the first. -/
def Document.normalized (doc : Document) : Document :=
  (doc.map Group.id).eraseDups.filterMap fun id =>
    (doc.reverse.find? fun g => g.id = id).map Group.normalized

theorem Named.normalized_eq (named : List (String × Value)) :
    Named.normalized named = mapValues Value.normalized named := by
  induction named with
  | nil => rfl
  | cons entry rest ih =>
    rw [Named.normalized, ih]
    rfl

theorem Values.normalized_eq (vs : List Value) :
    Values.normalized vs = vs.map Value.normalized := by
  induction vs with
  | nil => rfl
  | cons v rest ih => rw [Values.normalized, ih, List.map_cons]

theorem Items.normalized_eq (items : List Item) :
    Items.normalized items = items.map fun d => ⟨d.key, d.value.normalized⟩ := by
  induction items with
  | nil => rfl
  | cons d rest ih =>
    obtain ⟨key, v⟩ := d
    rw [Items.normalized, ih, List.map_cons]

/-- All entries of a group under keys, the anonymous ones under their positions. -/
def Group.keyed (g : Group) : List (String × Value) :=
  insertAll g.named (numbered 0 g.anonymous)

/-- In normal form a group has named entries only. -/
theorem Group.normalized_eq (g : Group) :
    g.normalized = ⟨g.id, mapValues Value.normalized g.keyed, []⟩ := by
  obtain ⟨id, named, anonymous⟩ := g
  rw [Group.normalized, Named.normalized_eq, Values.normalized_eq, Group.keyed,
    mapValues_insertAll, mapValues_numbered]

/-- The entries under keys are the entries. -/
theorem Group.forall_keyed {g : Group} {P : Value → Prop} (hanonymous : ∀ v ∈ g.anonymous, P v)
    (hnamed : ∀ entry ∈ g.named, P entry.2) : ∀ entry ∈ g.keyed, P entry.2 := by
  intro entry hentry
  rcases mem_insertAll hentry with hentry | hentry
  · exact hnamed entry hentry
  · exact hanonymous entry.2 (mem_numbered hentry).2

theorem Group.nodup_keys_keyed {g : Group} (h : (keys g.named).Nodup) : (keys g.keyed).Nodup :=
  nodup_keys_insertAll h _

/-- The entries of a group under the keys that they are exported with. Of several entries under one
key, which a well-made group does not have, the last counts. -/
def Group.fields (g : Group) : List (String × Value) :=
  ofList (g.named ++ numbered 0 g.anonymous)

theorem Group.fields_of_nodup {g : Group} (h : (keys g.named).Nodup) : g.fields = g.keyed := by
  have hnamed := ofList_of_nodup h
  rw [ofList] at hnamed
  rw [fields, ofList, insertAll_append, hnamed, keyed]

/-- What is true of all entries of a group is true of its fields. -/
theorem Group.forall_fields {g : Group} {P : Value → Prop} (hanonymous : ∀ v ∈ g.anonymous, P v)
    (hnamed : ∀ entry ∈ g.named, P entry.2) : ∀ entry ∈ g.fields, P entry.2 := by
  intro entry hentry
  rcases List.mem_append.mp (mem_ofList hentry) with hentry | hentry
  · exact hnamed entry hentry
  · exact hanonymous entry.2 (mem_numbered hentry).2

/-- What makes a value its own normal form, as far as that value goes: a group has all of its
entries under keys. -/
def Value.AllNamed : Value → Prop
  | .group g => g.anonymous = []
  | .array _ | .null | .string _ | .integer _ | .float _ | .bool _ => True

/-- Nothing in a normal value is without a key. -/
theorem Value.allNamed_normalized (v : Value) : ∀ w ∈ v.normalized.values, w.AllNamed := by
  induction v using Value.induction with
  | null | string _ | integer _ | float _ | bool _ =>
    intro w hw
    rw [List.mem_singleton.mp hw]
    trivial
  | group g ihanonymous ihnamed =>
    rw [Value.normalized, Group.normalized_eq]
    refine forall_values_group.mpr ⟨rfl, forall_values_inside.mpr ⟨by simp, ?_⟩⟩
    rw [mapValues, List.forall_mem_map]
    exact Group.forall_keyed ihanonymous ihnamed
  | array items ih =>
    rw [Value.normalized, Items.normalized_eq]
    refine forall_values_array.mpr ⟨trivial, ?_⟩
    rw [List.forall_mem_map]
    exact ih

/-- **A value is its own normal form** exactly if no group in it has an anonymous entry. -/
theorem Value.normalized_eq_self_iff (v : Value) :
    v.normalized = v ↔ ∀ w ∈ v.values, w.AllNamed := by
  refine ⟨fun h => h ▸ v.allNamed_normalized, ?_⟩
  intro h
  induction v using Value.induction with
  | null | string _ | integer _ | float _ | bool _ => rfl
  | group g ihanonymous ihnamed =>
    obtain ⟨hnone, hinside⟩ := forall_values_group.mp h
    obtain ⟨-, hnamed⟩ := forall_values_inside.mp hinside
    obtain ⟨id, named, anonymous⟩ := g
    obtain rfl : anonymous = [] := hnone
    rw [Value.normalized, Group.normalized_eq]
    exact congrArg (fun named => Value.group ⟨id, named, []⟩)
      (mapValues_eq_self fun entry hentry => ihnamed entry hentry (hnamed entry hentry))
  | array items ih =>
    obtain ⟨-, hitems⟩ := forall_values_array.mp h
    rw [Value.normalized, Items.normalized_eq]
    refine congrArg Value.array ((List.map_congr_left ?_).trans (List.map_id items))
    intro d hd
    have hvalue := ih d hd (hitems d hd)
    obtain ⟨key, v⟩ := d
    exact congrArg (Item.mk key) hvalue

/-! ## Top groups -/

/-- The top groups that have an id last, under their ids. -/
def Document.latest (doc : Document) : List (String × Group) :=
  ofList (doc.map fun g => (g.id, g))

theorem Document.keys_latest (doc : Document) : keys doc.latest = (doc.map Group.id).eraseDups := by
  rw [latest, keys_ofList, keys, List.map_map]
  rfl

/-- What is kept of a document is a group of it, under its own id. -/
theorem Document.mem_latest {doc : Document} {entry : String × Group} (h : entry ∈ doc.latest) :
    entry.2 ∈ doc ∧ entry.1 = entry.2.id := by
  obtain ⟨g, hg, rfl⟩ := List.mem_map.mp (mem_ofList h)
  exact ⟨hg, rfl⟩

/-- If the ids are distinct then every group is kept. -/
theorem Document.latest_of_nodup {doc : Document} (h : (doc.map Group.id).Nodup) :
    doc.latest = doc.map fun g => (g.id, g) := by
  refine ofList_of_nodup ?_
  rw [keys, List.map_map]
  exact h

theorem Document.normalized_eq (doc : Document) :
    doc.normalized = doc.latest.map fun entry => entry.2.normalized := by
  -- looking an id up in the pairs is finding the group that has it
  have hlookup : ∀ (gs : List Group) (id : String),
      (gs.map fun g => (g.id, g)).lookup id = gs.find? fun g => g.id = id := by
    intro gs id
    induction gs with
    | nil => rfl
    | cons g gs ih =>
      rw [List.map_cons, List.lookup_cons, List.find?_cons]
      by_cases hid : g.id = id
      · subst hid
        simp
      · rw [beq_eq_false_iff_ne.mpr (Ne.symm hid), decide_eq_false hid]
        exact ih
  have hvalues := filterMap_get?_keys (nodup_keys_ofList (doc.map fun g => (g.id, g)))
  rw [← latest, keys_latest] at hvalues
  calc doc.normalized
      = ((doc.map Group.id).eraseDups.filterMap (get? doc.latest)).map Group.normalized := by
        rw [List.map_filterMap, normalized]
        refine List.filterMap_congr ?_
        intro id _
        rw [latest, get?_ofList, ← List.map_reverse, hlookup]
    _ = doc.latest.map fun entry => entry.2.normalized := by
        rw [hvalues, List.map_map]
        rfl

/-- The ids stay in the order in which they first come. -/
theorem Document.ids_normalized (doc : Document) :
    doc.normalized.map Group.id = (doc.map Group.id).eraseDups := by
  rw [← keys_latest, normalized_eq, keys, List.map_map]
  refine List.map_congr_left ?_
  intro entry hentry
  have hid : entry.2.normalized.id = entry.2.id := by rw [Group.normalized_eq]
  rw [(mem_latest hentry).2, ← hid]
  rfl

/-- **A document is its own normal form** exactly if its top groups have distinct ids and no
group in it has an anonymous entry. -/
theorem Document.normalized_eq_self_iff (doc : Document) :
    doc.normalized = doc ↔ (doc.map Group.id).Nodup ∧ ∀ w ∈ doc.values, w.AllNamed := by
  refine ⟨?_, ?_⟩
  · intro h
    refine ⟨?_, ?_⟩
    · have hids : (keys doc.latest).Nodup := nodup_keys_ofList _
      rwa [keys_latest, ← ids_normalized, h] at hids
    · rw [← h, normalized_eq]
      refine forall_values_document.mpr (List.forall_mem_map.mpr ?_)
      intro entry _
      exact (Value.group entry.2).allNamed_normalized
  · rintro ⟨hids, hnamed⟩
    rw [normalized_eq, latest_of_nodup hids, List.map_map]
    refine (List.map_congr_left ?_).trans (List.map_id doc)
    intro g hg
    have hself := (Value.group g).normalized_eq_self_iff.mpr (forall_values_document.mp hnamed g hg)
    rw [Value.normalized] at hself
    exact Value.group.inj hself

/-! ## Reserved keys -/

/-- Whether a single value leaves the reserved member of host maps alone. -/
def Value.Unreserved : Value → Prop
  | .group g => HostValue.idKey ∉ keys g.named
  | .array _ | .null | .string _ | .integer _ | .float _ | .bool _ => True

/-- No position is the reserved key: it starts with a digit. -/
theorem idKey_ne_position (i : Nat) : HostValue.idKey ≠ (Numeral.ofInt i).text := by
  intro heq
  have hdigits := Numeral.isDigit_toDigits i
  rw [← Numeral.toList_text_ofNat, ← heq] at hdigits
  exact absurd (hdigits '_' (by decide)) (by decide)

theorem Group.idKey_not_mem_keyed {g : Group} (h : HostValue.idKey ∉ keys g.named) :
    HostValue.idKey ∉ keys g.keyed := by
  intro hmem
  obtain ⟨entry, hentry, hkey⟩ := List.mem_map.mp hmem
  rcases mem_insertAll hentry with hentry | hentry
  · exact h (List.mem_map.mpr ⟨entry, hentry, hkey⟩)
  · obtain ⟨⟨i, hi⟩, -⟩ := mem_numbered hentry
    exact idKey_ne_position i (hkey.symm.trans hi)

/-! ## Export -/

section ToHost

variable (shape : GroupShape)

theorem Named.toHost_eq (named : List (String × Value)) :
    Named.toHost shape named = mapValues (Value.toHost shape) named := by
  induction named with
  | nil => rfl
  | cons entry rest ih =>
    rw [Named.toHost, ih]
    rfl

theorem Values.toHost_eq (index : Nat) (vs : List Value) :
    Values.toHost shape index vs = numbered index (vs.map (Value.toHost shape)) := by
  induction vs generalizing index with
  | nil => rfl
  | cons v rest ih => rw [Values.toHost, ih, List.map_cons, numbered]

theorem Items.toHost_eq (items : List Item) :
    Items.toHost shape items = items.map fun d => d.value.toHost shape := by
  induction items with
  | nil => rfl
  | cons d rest ih =>
    obtain ⟨key, v⟩ := d
    rw [Items.toHost, ih, List.map_cons]

/-- **The host value of a group** is its id and the values of its entries under keys. -/
theorem Group.toHost_fields (g : Group) :
    g.toHost shape =
      HostValue.ofGroupFields shape g.id (mapValues (Value.toHost shape) g.fields) := by
  obtain ⟨id, named, anonymous⟩ := g
  rw [toHost, Named.toHost_eq, Values.toHost_eq, fields, mapValues_ofList, ← mapValues_numbered,
    mapValues, mapValues, mapValues, List.map_append]

/-- A group is exported as its keyed entries in the given shape. -/
theorem Group.toHost_eq {g : Group} (h : (keys g.named).Nodup) :
    g.toHost shape =
      HostValue.ofGroupFields shape g.id (mapValues (Value.toHost shape) g.keyed) := by
  rw [toHost_fields, fields_of_nodup h]

/-- A document is exported as a map from ids to the groups kept. -/
theorem Document.toHost_value (doc : Document) :
    (doc.toHost shape).value = mapValues (Group.toHost shape) doc.latest := by
  have hadd : ∀ (doc : Document) root, (Document.addToHost shape root doc).value =
      insertAll root (doc.map fun g => (g.id, g.toHost shape)) := by
    intro doc
    induction doc with
    | nil => exact fun root => rfl
    | cons g doc ih =>
      intro root
      rw [Document.addToHost, List.map_cons, insertAll_cons, ← ih]
      -- the log line of a repeated id is the only difference between the two branches
      split <;> rfl
  rw [latest, mapValues_ofList, mapValues, List.map_map]
  exact hadd doc []

end ToHost

/-! ## Import -/

/-- The items of a list are imported without keys. -/
theorem HostValues.toItems_value (items : List HostValue) :
    (HostValues.toItems items).value = items.map fun x => .ofValue x.toValue.value := by
  induction items with
  | nil => rfl
  | cons x rest ih =>
    rw [List.map_cons, ← ih]
    rfl

/-- The entries of a map are its members, less the reserved one. -/
theorem Members.toEntries_value (members : List (String × HostValue)) :
    (Members.toEntries members).value =
      (mapValues (fun x => x.toValue.value)
        (members.filter fun entry => entry.1 ≠ HostValue.idKey)).map Item.ofEntry := by
  induction members with
  | nil => rfl
  | cons entry rest ih =>
    obtain ⟨key, x⟩ := entry
    rw [Members.toEntries]
    by_cases hkey : key = HostValue.idKey
    · rw [if_pos hkey, ih, List.filter_cons_of_neg (by simpa using hkey)]
    · rw [if_neg hkey, List.filter_cons_of_pos (by simpa using hkey), mapValues_cons, List.map_cons,
        ← ih]
      rfl

theorem Group.addAll_ofEntry (g : Group) (entries : List (String × Value)) :
    g.addAll (entries.map Item.ofEntry) = { g with named := insertAll g.named entries } := by
  obtain ⟨hnamed, hanonymous⟩ := Item.filterMap_ofEntry entries
  rw [g.addAll_eq, hnamed, hanonymous, List.append_nil]

/-- Adding members to a group without entries gives the map of their values. -/
theorem Group.addAll_toEntries (id : String) (members : List (String × HostValue)) :
    (Group.mk id [] []).addAll (Members.toEntries members).value =
      ⟨id, ofList (mapValues (fun x => x.toValue.value)
        (members.filter fun entry => entry.1 ≠ HostValue.idKey)), []⟩ := by
  rw [Members.toEntries_value, Group.addAll_ofEntry, ofList]

/-- **A group of the host comes back under its id** with the values of its fields, whichever
way the host keeps the id. -/
theorem HostValue.toValue_ofGroupFields (shape : GroupShape) {id : String} (hid : id ≠ "")
    {fields : List (String × HostValue)} (hkeys : (keys fields).Nodup)
    (hfree : HostValue.idKey ∉ keys fields) :
    (HostValue.ofGroupFields shape id fields).toValue.value =
      .group ⟨id, mapValues (fun x => x.toValue.value) fields, []⟩ := by
  have hentries : ofList (mapValues (fun x : HostValue => x.toValue.value) fields) =
      mapValues (fun x => x.toValue.value) fields := ofList_of_nodup (by rwa [keys_mapValues])
  have hfilter : fields.filter (fun entry => entry.1 ≠ HostValue.idKey) = fields := by
    refine List.filter_eq_self.mpr ?_
    intro entry hentry
    refine decide_eq_true ?_
    exact fun heq => hfree (heq ▸ List.mem_map_of_mem hentry)
  have hempty : Group.ofId id = ⟨id, [], []⟩ := by
    rw [Group.ofId, Group.resolveId_of_ne hid]
  cases shape with
  | record =>
    have hvalue : (HostValue.record id fields).toValue.value =
        .group ((Group.ofId id).addAll (Members.toEntries fields).value) := rfl
    rw [HostValue.ofGroupFields, hvalue, hempty, Group.addAll_toEntries, hfilter, hentries]
  | map =>
    have hvalue : ∀ members, (HostValue.map members).toValue.value =
        .group ((Group.ofMembers members).addAll (Members.toEntries members).value) := fun _ => rfl
    have hnamed : Group.ofMembers (insert fields HostValue.idKey (.string id)) = ⟨id, [], []⟩ := by
      rw [Group.ofMembers, get?_insert_self]
      exact hempty
    -- the reserved member is new, so it stands at the end, where import leaves it out
    have hlast : (insert fields HostValue.idKey (.string id)).filter
        (fun entry => entry.1 ≠ HostValue.idKey) = fields := by
      rw [insert_of_not_mem hfree, List.filter_append, hfilter]
      exact List.append_nil fields
    rw [HostValue.ofGroupFields, hvalue, hnamed, Group.addAll_toEntries, hlast, hentries]

/-! ## Export and import -/

section Exchange

variable (shape : GroupShape)

/-- **Import after export is the normal form** of a value. -/
theorem Value.toValue_toHost {v : Value} (hmade : ∀ w ∈ v.values, w.WellMade)
    (hfree : ∀ w ∈ v.values, w.Unreserved) : (v.toHost shape).toValue.value = v.normalized := by
  induction v using Value.induction with
  | null | string _ | integer _ | float _ | bool _ => rfl
  | group g ihanonymous ihnamed =>
    obtain ⟨⟨hid, hkeys⟩, hmade⟩ := forall_values_group.mp hmade
    obtain ⟨hgfree, hfree⟩ := forall_values_group.mp hfree
    obtain ⟨hmadeAnonymous, hmadeNamed⟩ := forall_values_inside.mp hmade
    obtain ⟨hfreeAnonymous, hfreeNamed⟩ := forall_values_inside.mp hfree
    have hentries : ∀ entry ∈ g.keyed, (entry.2.toHost shape).toValue.value = entry.2.normalized :=
      Group.forall_keyed (fun v hv => ihanonymous v hv (hmadeAnonymous v hv) (hfreeAnonymous v hv))
        fun e he => ihnamed e he (hmadeNamed e he) (hfreeNamed e he)
    -- out as a map of fields, and back as the map of their values
    rw [Value.toHost, Group.toHost_eq shape hkeys, HostValue.toValue_ofGroupFields shape hid
      (by rw [keys_mapValues]; exact Group.nodup_keys_keyed hkeys)
      (by rw [keys_mapValues]; exact Group.idKey_not_mem_keyed hgfree),
      mapValues_mapValues, mapValues_congr hentries, Value.normalized, Group.normalized_eq]
  | array items ih =>
    obtain ⟨hnone, hmade⟩ := forall_values_array.mp hmade
    obtain ⟨-, hfree⟩ := forall_values_array.mp hfree
    have hvalue : ∀ xs, (HostValue.list xs).toValue.value =
        .array (HostValues.toItems xs).value := fun _ => rfl
    rw [Value.toHost, hvalue, Items.toHost_eq, HostValues.toItems_value, List.map_map,
      Value.normalized, Items.normalized_eq]
    refine congrArg Value.array (List.map_congr_left ?_)
    intro d hd
    have hd' := ih d hd (hmade d hd) (hfree d hd)
    have hkey := hnone d hd
    obtain ⟨key, v⟩ := d
    obtain rfl : key = none := hkey
    exact congrArg Item.ofValue hd'

/-- A value and its normal form are the same to the host. -/
theorem Value.toHost_normalized {v : Value} (hmade : ∀ w ∈ v.values, w.WellMade) :
    v.normalized.toHost shape = v.toHost shape := by
  induction v using Value.induction with
  | null | string _ | integer _ | float _ | bool _ => rfl
  | group g ihanonymous ihnamed =>
    obtain ⟨⟨-, hkeys⟩, hmade⟩ := forall_values_group.mp hmade
    obtain ⟨hmadeAnonymous, hmadeNamed⟩ := forall_values_inside.mp hmade
    have hentries : mapValues (fun v => v.normalized.toHost shape) g.keyed =
        mapValues (Value.toHost shape) g.keyed :=
      mapValues_congr (Group.forall_keyed (fun v hv => ihanonymous v hv (hmadeAnonymous v hv))
        fun e he => ihnamed e he (hmadeNamed e he))
    have hnodup : (keys (mapValues Value.normalized g.keyed)).Nodup := by
      rw [keys_mapValues]
      exact Group.nodup_keys_keyed hkeys
    have hkeyed : (Group.mk g.id (mapValues Value.normalized g.keyed) []).keyed =
        mapValues Value.normalized g.keyed := rfl
    rw [Value.normalized, Group.normalized_eq, Value.toHost, Group.toHost_eq shape hnodup, hkeyed,
      mapValues_mapValues, hentries, Value.toHost, Group.toHost_eq shape hkeys]
  | array items ih =>
    obtain ⟨-, hmade⟩ := forall_values_array.mp hmade
    rw [Value.normalized, Items.normalized_eq, Value.toHost, Items.toHost_eq, List.map_map,
      Value.toHost, Items.toHost_eq]
    refine congrArg HostValue.list (List.map_congr_left ?_)
    intro d hd
    exact ih d hd (hmade d hd)

end Exchange

/-! ## Documents -/

/-- Inside a document a map or record means the same as on top. -/
theorem HostValue.toGroup_value {x : HostValue} {g : Group} (h : x.toValue.value = .group g)
    (name : String) : (x.toGroup name).value = g := by
  cases x with
  | map members => exact Value.group.inj h
  | record typeName fields => exact Value.group.inj h
  | null | bool _ | integer _ | float _ | string _ | list _ | foreign _ => cases h

/-- Every member of a root map is imported as a group with the name of the member as its id. -/
theorem Document.ofHost_value (root : List (String × HostValue)) :
    (Document.ofHost root).value =
      root.map fun entry => (entry.2.toGroup entry.1).value.setId entry.1 := by
  induction root with
  | nil => rfl
  | cons entry rest ih =>
    rw [List.map_cons, ← ih]
    rfl

/-- No id comes twice in a normal form, so all its groups are kept. -/
theorem Document.latest_normalized (doc : Document) :
    doc.normalized.latest = mapValues Group.normalized doc.latest := by
  -- a second export repeats no id, so it leaves nothing out
  have hids : (doc.normalized.map Group.id).Nodup := by
    rw [ids_normalized, ← keys_latest]
    exact nodup_keys_ofList _
  rw [latest_of_nodup hids, normalized_eq, List.map_map]
  refine List.map_congr_left ?_
  intro entry hentry
  have hid : entry.2.normalized.id = entry.1 := by
    rw [Group.normalized_eq]
    exact (mem_latest hentry).2.symm
  exact congrArg (·, entry.2.normalized) hid

section Documents

variable {doc : Document} (shape : GroupShape)

/-- **Import after export gives the normal form.** -/
theorem Document.normalized_of_exchange (hmade : doc.WellMade)
    (hfree : ∀ w ∈ doc.values, w.Unreserved) :
    (Document.ofHost (doc.toHost shape).value).value = doc.normalized := by
  rw [ofHost_value, toHost_value, mapValues, List.map_map, normalized_eq]
  refine List.map_congr_left ?_
  intro entry hentry
  obtain ⟨hmem, hkey⟩ := mem_latest hentry
  have hgroup := forall_values_document.mp hmade entry.2 hmem
  have hvalue := Value.toValue_toHost shape hgroup (forall_values_document.mp hfree entry.2 hmem)
  have hnormal := HostValue.toGroup_value hvalue entry.1
  have hid : entry.2.id ≠ "" := (forall_values_group.mp hgroup).1.1
  -- the root key is the id that the group has already
  have hsame : entry.2.normalized.setId entry.1 = entry.2.normalized := by
    rw [hkey, Group.setId, Group.resolveId_of_ne hid, Group.normalized_eq]
  exact (congrArg (Group.setId · entry.1) hnormal).trans hsame

/-- The normal form is exported as the document itself. -/
theorem Document.toHost_normalized (hmade : doc.WellMade) :
    (doc.normalized.toHost shape).value = (doc.toHost shape).value := by
  rw [toHost_value, toHost_value, latest_normalized, mapValues_mapValues]
  refine mapValues_congr ?_
  intro entry hentry
  have hgroup := forall_values_document.mp hmade entry.2 (mem_latest hentry).1
  have hsame := Value.toHost_normalized shape hgroup
  rwa [Value.normalized, Value.toHost, Value.toHost] at hsame

end Documents

/-! ## What import makes -/

/-- Induction over a host value: members, fields and items come first. -/
@[elab_as_elim]
theorem HostValue.induction {motive : HostValue → Prop} (null : motive .null)
    (bool : ∀ b, motive (.bool b)) (integer : ∀ i, motive (.integer i))
    (float : ∀ x, motive (.float x)) (string : ∀ s, motive (.string s))
    (list : ∀ items, (∀ x ∈ items, motive x) → motive (.list items))
    (map : ∀ members, (∀ entry ∈ members, motive entry.2) → motive (.map members))
    (record : ∀ typeName fields, (∀ entry ∈ fields, motive entry.2) →
      motive (.record typeName fields))
    (foreign : ∀ typeName, motive (.foreign typeName)) (x : HostValue) : motive x :=
  @HostValue.rec motive (fun items => ∀ x ∈ items, motive x)
    (fun members => ∀ entry ∈ members, motive entry.2) (fun entry => motive entry.2)
    null bool integer float string list map record foreign
    (by simp) (fun _ _ hx hrest => List.forall_mem_cons.mpr ⟨hx, hrest⟩)
    (by simp) (fun _ _ hentry hrest => List.forall_mem_cons.mpr ⟨hentry, hrest⟩)
    (fun _ _ hx => hx) x

/-- Members give the entries of a well-made group that leaves the reserved key alone. -/
theorem wellMade_members {id : String} (hid : id ≠ "") {members : List (String × HostValue)}
    (h : ∀ entry ∈ members, ∀ w ∈ entry.2.toValue.value.values, w.WellMade ∧ w.Unreserved) :
    ∀ w ∈ (Value.group ((Group.mk id [] []).addAll (Members.toEntries members).value)).values,
      w.WellMade ∧ w.Unreserved := by
  rw [Group.addAll_toEntries]
  -- every entry of the group comes from a member, and not from the reserved one
  have hmem : ∀ e ∈ ofList (mapValues (fun x : HostValue => x.toValue.value)
      (members.filter fun entry => entry.1 ≠ HostValue.idKey)),
      ∃ entry ∈ members, entry.1 ≠ HostValue.idKey ∧ e = (entry.1, entry.2.toValue.value) := by
    intro e he
    obtain ⟨entry, hentry, rfl⟩ := List.mem_map.mp (mem_ofList he)
    obtain ⟨hentry, hkey⟩ := List.mem_filter.mp hentry
    exact ⟨entry, hentry, of_decide_eq_true hkey, rfl⟩
  refine forall_values_group.mpr ⟨⟨⟨hid, nodup_keys_ofList _⟩, ?_⟩, ?_⟩
  · intro hreserved
    obtain ⟨e, he, hkey⟩ := List.mem_map.mp hreserved
    obtain ⟨entry, -, hne, rfl⟩ := hmem e he
    exact hne hkey
  · refine forall_values_inside.mpr ⟨by simp, ?_⟩
    intro e he
    obtain ⟨entry, hentry, -, rfl⟩ := hmem e he
    exact h entry hentry

theorem Group.ofMembers_eq (members : List (String × HostValue)) :
    ∃ id, id ≠ "" ∧ Group.ofMembers members = ⟨id, [], []⟩ := by
  rw [Group.ofMembers]
  split
  · exact ⟨_, Group.resolveId_ne _, rfl⟩
  · exact ⟨_, Group.resolveId_ne _, rfl⟩

/-- Whatever is imported is well made and keeps the reserved key free. -/
theorem HostValue.wellMade_toValue (x : HostValue) :
    ∀ w ∈ x.toValue.value.values, w.WellMade ∧ w.Unreserved := by
  induction x using HostValue.induction with
  | null | bool _ | integer _ | float _ | string _ | foreign _ =>
    intro w hw
    rw [List.mem_singleton.mp hw]
    exact ⟨trivial, trivial⟩
  | list items ih =>
    have hvalue : (HostValue.list items).toValue.value =
        .array (HostValues.toItems items).value := rfl
    rw [hvalue, HostValues.toItems_value]
    refine forall_values_array.mpr ⟨⟨?_, trivial⟩, List.forall_mem_map.mpr ih⟩
    exact List.forall_mem_map.mpr fun _ _ => rfl
  | map members ih =>
    obtain ⟨id, hid, hgroup⟩ := Group.ofMembers_eq members
    have hvalue : (HostValue.map members).toValue.value =
        .group ((Group.ofMembers members).addAll (Members.toEntries members).value) := rfl
    rw [hvalue, hgroup]
    exact wellMade_members hid ih
  | record typeName fields ih => exact wellMade_members (Group.resolveId_ne typeName) ih

theorem wellMade_wrapped {v : Value} (h : ∀ w ∈ v.values, w.WellMade ∧ w.Unreserved) :
    ∀ w ∈ (Value.group (Group.unknown.push v)).values, w.WellMade ∧ w.Unreserved := by
  have hself : (Value.group (Group.unknown.push v)).WellMade :=
    ⟨Group.resolveId_ne Group.unknownId, List.nodup_nil⟩
  refine forall_values_group.mpr ⟨⟨hself, List.not_mem_nil⟩, forall_values_inside.mpr ⟨?_, ?_⟩⟩
  · exact List.forall_mem_singleton.mpr h
  · exact fun entry hentry => absurd hentry List.not_mem_nil

/-- The same for a member of the root, which is a group in any case. -/
theorem HostValue.wellMade_toGroup (x : HostValue) (name : String) :
    ∀ w ∈ (Value.group (x.toGroup name).value).values, w.WellMade ∧ w.Unreserved := by
  have hvalue := x.wellMade_toValue
  cases x with
  | map members => exact hvalue
  | record typeName fields => exact hvalue
  | null | bool _ | integer _ | float _ | string _ | list _ | foreign _ =>
    exact wellMade_wrapped hvalue

/-- **Every import is well made and leaves the reserved key alone.** -/
theorem Document.wellMade_ofHost (root : List (String × HostValue)) :
    ∀ w ∈ (Document.ofHost root).value.values, w.WellMade ∧ w.Unreserved := by
  rw [ofHost_value]
  refine forall_values_document.mpr (List.forall_mem_map.mpr ?_)
  rintro ⟨name, payload⟩ -
  obtain ⟨⟨⟨-, hkeys⟩, hfree⟩, hinside⟩ := forall_values_group.mp (payload.wellMade_toGroup name)
  refine forall_values_group.mpr ⟨⟨⟨Group.resolveId_ne name, hkeys⟩, hfree⟩, ?_⟩
  rw [forall_values_inside] at hinside ⊢
  exact hinside

/-! ## The exchange -/

/-- **Export and import lose exactly what normal documents lack.** Of a well-made document whose
groups leave the reserved key alone, import after export gives the normal form, for either
shape of group; exporting once more gives the same root map again; and the document comes back
unchanged exactly if its top groups have distinct ids and no group in it has an anonymous entry.
Every import is such a document. -/
theorem Document.ofHost_toHost {doc : Document} (hmade : doc.WellMade)
    (hfree : ∀ w ∈ doc.values, w.Unreserved) :
    (∀ shape, (Document.ofHost (doc.toHost shape).value).value = doc.normalized) ∧
      (∀ shape, ((Document.ofHost (doc.toHost shape).value).value.toHost shape).value =
        (doc.toHost shape).value) ∧
      (∀ shape, (Document.ofHost (doc.toHost shape).value).value = doc ↔
        (doc.map Group.id).Nodup ∧ ∀ w ∈ doc.values, w.AllNamed) ∧
      ∀ root, (Document.ofHost root).value.WellMade ∧
        ∀ w ∈ (Document.ofHost root).value.values, w.Unreserved := by
  refine ⟨fun shape => normalized_of_exchange shape hmade hfree, ?_, ?_, ?_⟩
  · intro shape
    rw [normalized_of_exchange shape hmade hfree, toHost_normalized shape hmade]
  · intro shape
    rw [normalized_of_exchange shape hmade hfree, normalized_eq_self_iff]
  · intro root
    have hroot := wellMade_ofHost root
    exact ⟨fun w hw => (hroot w hw).1, fun w hw => (hroot w hw).2⟩

/-- Two groups of one id, the later one with a key that a position takes over and with a group
in an array. -/
theorem Document.ofHost_toHost_repeated :
    ∃ doc : Document, doc = [⟨"p", [], []⟩, ⟨"q", [], []⟩,
        ⟨"p", [("0", .null), ("k", .null)],
          [.bool true, .array [⟨none, .group ⟨"r", [], [.integer 1]⟩⟩]]⟩] ∧
      doc.WellMade ∧ (∀ w ∈ doc.values, w.Unreserved) ∧
      ∀ shape, (Document.ofHost (doc.toHost shape).value).value = [⟨"p", [("0", .bool true),
        ("k", .null), ("1", .array [⟨none, .group ⟨"r", [("0", .integer 1)], []⟩⟩])], []⟩,
        ⟨"q", [], []⟩] := by
  refine ⟨_, rfl, ?_⟩
  have hmade : Document.WellMade [⟨"p", [], []⟩, ⟨"q", [], []⟩,
      ⟨"p", [("0", .null), ("k", .null)],
        [.bool true, .array [⟨none, .group ⟨"r", [], [.integer 1]⟩⟩]]⟩] := by
    simp [Document.WellMade, Document.values, Value.values, Group.values, Values.values,
      Named.values, Items.values, Value.WellMade, keys]
  have hfree : ∀ w ∈ Document.values [⟨"p", [], []⟩, ⟨"q", [], []⟩,
      ⟨"p", [("0", .null), ("k", .null)],
        [.bool true, .array [⟨none, .group ⟨"r", [], [.integer 1]⟩⟩]]⟩], w.Unreserved := by
    simp [Document.values, Value.values, Group.values, Values.values, Named.values, Items.values,
      Value.Unreserved, keys, HostValue.idKey]
  refine ⟨hmade, hfree, ?_⟩
  intro shape
  rw [(Document.ofHost_toHost hmade hfree).1 shape]
  rfl

end DataLisp
