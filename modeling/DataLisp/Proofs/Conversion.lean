/-
JSON by way of document text.

A document that is imported from JSON text says no more than document text can say, apart from
its names: its floats are finite, since JSON has no others, and it nests no deeper than JSON text
may, which is less than document text may. So the only offences in it are names
(`Document.ofName_of_write`), and where it has a text it is read back from it; what is then exported
is what the import itself would be exported as, and the export cannot fail, as there is nothing
in such a document that JSON lacks.

The two programs one after the other do just that, if the second reads what the first has
written.
-/
import DataLisp.Proofs.HostJson
import DataLisp.Proofs.Programs

set_option autoImplicit false

namespace DataLisp

open OrderedMap

/-! ## What is imported from JSON -/

/-- Everything that JSON decodes to can be written as JSON. -/
theorem HostValue.representable_ofJson (v : Json) (h : ∀ w ∈ v.values, w.WellMade) :
    ∀ y ∈ (ofJson v).values, y.Representable := by
  induction v using Json.induction with
  | null | bool _ | integer _ | string _ => simp [ofJson, values, Representable]
  | float x =>
    have hfinite : x.isFinite = true := h (.float x) (by simp [Json.values])
    simpa [ofJson, values, Representable] using hfinite
  | array items ih =>
    obtain ⟨-, hitems⟩ := Json.forall_values_array.mp h
    rw [ofJson, HostValues.ofJson_eq, values, List.forall_mem_cons, HostValues.forall_values,
      List.forall_mem_map]
    exact ⟨trivial, fun v hv => ih v hv (hitems v hv)⟩
  | object members ih =>
    obtain ⟨-, hmembers⟩ := Json.forall_values_object.mp h
    rw [ofJson, Members.ofJson_eq, values, List.forall_mem_cons, Members.forall_values, mapValues,
      List.forall_mem_map]
    exact ⟨trivial, fun member hmember => ih member hmember (hmembers member hmember)⟩

/-- A root map that is decoded has nothing in it that JSON cannot represent, and it is no deeper
than the decoder goes. -/
theorem HostValue.decodeRoot_eq_ok {text : String} {root : List (String × HostValue)}
    (h : decodeRoot text = .ok root) :
    (∀ y ∈ Members.values root, y.Representable) ∧ Members.depth root < Json.maxDepth := by
  rw [decodeRoot] at h
  split at h
  · cases h
  · rename_i v hv
    obtain ⟨hdepth, hmade⟩ := Json.isDecoded_ofText? hv
    have hall := representable_ofJson v hmade
    rw [← depth_ofJson] at hdepth
    split at h
    · rename_i members hmembers
      cases h
      rw [hmembers, values, List.forall_mem_cons] at hall
      rw [hmembers, depth] at hdepth
      exact ⟨hall.2, hdepth⟩
    · cases h

/-- Whether a single value is no float or a finite one. -/
def Value.Finite : Value → Prop
  | .float x => x.isFinite = true
  | .null | .string _ | .integer _ | .bool _ | .group _ | .array _ => True

section Entries

variable {P : Value → Prop} {members : List (String × HostValue)}

/-- The entries of the group of a map are the values of its members. -/
theorem Members.forall_named (h : ∀ entry ∈ members, P entry.2.toValue.value) (id : String) :
    ∀ e ∈ ((Group.mk id [] []).addAll (Members.toEntries members).value).named, P e.2 := by
  rw [Group.addAll_toEntries]
  intro e he
  obtain ⟨entry, hentry, rfl⟩ := List.mem_map.mp (mem_ofList he)
  exact h entry (List.mem_filter.mp hentry).1

theorem Members.anonymous_toEntries (id : String) :
    ((Group.mk id [] []).addAll (Members.toEntries members).value).anonymous = [] := by
  rw [Group.addAll_toEntries]

end Entries

/-- A map or a record is imported as a group without entries to which its members are added. -/
theorem HostValue.toValue_map (members : List (String × HostValue)) :
    ∃ id, (map members).toValue.value =
      .group ((Group.mk id [] []).addAll (Members.toEntries members).value) := by
  obtain ⟨id, -, hgroup⟩ := Group.ofMembers_eq members
  have hvalue : (map members).toValue.value =
      .group ((Group.ofMembers members).addAll (Members.toEntries members).value) := rfl
  exact ⟨id, by rw [hvalue, hgroup]⟩

theorem HostValue.toValue_record (typeName : String) (fields : List (String × HostValue)) :
    ∃ id, (record typeName fields).toValue.value =
      .group ((Group.mk id [] []).addAll (Members.toEntries fields).value) :=
  ⟨Group.resolveId typeName, rfl⟩

theorem finite_members {id : String} {members : List (String × HostValue)}
    (h : ∀ entry ∈ members, ∀ w ∈ entry.2.toValue.value.values, w.Finite) :
    ∀ w ∈ (Value.group ((Group.mk id [] []).addAll (Members.toEntries members).value)).values,
      w.Finite := by
  refine forall_values_group.mpr ⟨trivial, forall_values_inside.mpr ⟨?_, ?_⟩⟩
  · rw [Members.anonymous_toEntries]
    simp
  · exact Members.forall_named (P := fun v => ∀ w ∈ v.values, w.Finite) h id

theorem HostValue.finite_toValue (x : HostValue) (h : ∀ y ∈ x.values, y.Representable) :
    ∀ w ∈ x.toValue.value.values, w.Finite := by
  induction x using HostValue.induction with
  | null | bool _ | integer _ | string _ | foreign _ =>
    intro w hw
    rw [List.mem_singleton.mp hw]
    trivial
  | float x =>
    intro w hw
    rw [List.mem_singleton.mp hw]
    exact h (.float x) (by simp [values])
  | list items ih =>
    rw [values, List.forall_mem_cons, HostValues.forall_values] at h
    have hvalue : (HostValue.list items).toValue.value =
        .array (HostValues.toItems items).value := rfl
    rw [hvalue, HostValues.toItems_value]
    refine forall_values_array.mpr ⟨trivial, List.forall_mem_map.mpr ?_⟩
    exact fun x hx => ih x hx (h.2 x hx)
  | map members ih =>
    rw [values, List.forall_mem_cons, Members.forall_values] at h
    obtain ⟨id, hvalue⟩ := toValue_map members
    rw [hvalue]
    exact finite_members fun entry hentry => ih entry hentry (h.2 entry hentry)
  | record typeName fields ih =>
    rw [values, List.forall_mem_cons, Members.forall_values] at h
    obtain ⟨id, hvalue⟩ := toValue_record typeName fields
    rw [hvalue]
    exact finite_members fun entry hentry => ih entry hentry (h.2 entry hentry)

theorem depth_members {id : String} {members : List (String × HostValue)} {n : Nat}
    (h : ∀ entry ∈ members, entry.2.toValue.value.depth ≤ n) :
    ((Group.mk id [] []).addAll (Members.toEntries members).value).depth ≤ n := by
  refine Group.depth_le.mpr ⟨?_, Members.forall_named (P := fun v => v.depth ≤ n) h id⟩
  rw [Members.anonymous_toEntries]
  simp

/-- **A host value is imported without getting deeper.** -/
theorem HostValue.depth_toValue_le (x : HostValue) : x.toValue.value.depth ≤ x.depth := by
  induction x using HostValue.induction with
  | null | bool _ | integer _ | float _ | string _ | foreign _ => exact Nat.zero_le _
  | list items ih =>
    have hvalue : (HostValue.list items).toValue.value =
        .array (HostValues.toItems items).value := rfl
    rw [hvalue, HostValues.toItems_value, Value.depth, depth]
    refine Nat.succ_le_succ (Items.depth_le.mpr (List.forall_mem_map.mpr ?_))
    exact fun x hx => (ih x hx).trans (HostValues.depth_le.mp le_rfl x hx)
  | map members ih =>
    obtain ⟨id, hvalue⟩ := toValue_map members
    rw [hvalue, Value.depth, depth]
    refine Nat.succ_le_succ (depth_members ?_)
    exact fun entry hentry => (ih entry hentry).trans (Members.depth_le.mp le_rfl entry hentry)
  | record typeName fields ih =>
    obtain ⟨id, hvalue⟩ := toValue_record typeName fields
    rw [hvalue, Value.depth, depth]
    refine Nat.succ_le_succ (depth_members ?_)
    exact fun entry hentry => (ih entry hentry).trans (Members.depth_le.mp le_rfl entry hentry)

/-- On top, what is no group is the only entry of one. -/
theorem HostValue.toGroup_cases (x : HostValue) (name : String) :
    x.toValue.value = .group (x.toGroup name).value ∨
      (x.toGroup name).value = Group.unknown.push x.toValue.value := by
  cases x with
  | map members => exact .inl rfl
  | record typeName fields => exact .inl rfl
  | null | bool _ | integer _ | float _ | string _ | list _ | foreign _ => exact .inr rfl

theorem HostValue.depth_toGroup_le (x : HostValue) (name : String) :
    (x.toGroup name).value.depth ≤ x.depth := by
  have hvalue := x.depth_toValue_le
  rcases x.toGroup_cases name with hgroup | hgroup
  · rw [hgroup, Value.depth] at hvalue
    exact (Nat.le_succ _).trans hvalue
  · rw [hgroup, Group.depth_le]
    exact ⟨List.forall_mem_singleton.mpr hvalue, fun e he => absurd he List.not_mem_nil⟩

namespace Document

theorem finite_ofHost {root : List (String × HostValue)}
    (h : ∀ y ∈ Members.values root, y.Representable) :
    ∀ w ∈ (ofHost root).value.values, w.Finite := by
  rw [Members.forall_values] at h
  rw [ofHost_value]
  refine forall_values_document.mpr (List.forall_mem_map.mpr ?_)
  rintro ⟨name, payload⟩ hentry
  have hvalue := payload.finite_toValue (h _ hentry)
  refine forall_values_group.mpr ⟨trivial, ?_⟩
  rw [Group.values_setId]
  rcases payload.toGroup_cases name with hgroup | hgroup
  · rw [hgroup] at hvalue
    exact (forall_values_group.mp hvalue).2
  · rw [hgroup, forall_values_inside]
    exact ⟨List.forall_mem_singleton.mpr hvalue, fun e he => absurd he List.not_mem_nil⟩

theorem depth_ofHost {root : List (String × HostValue)} :
    ∀ g ∈ (ofHost root).value, g.depth ≤ Members.depth root := by
  rw [ofHost_value, List.forall_mem_map]
  rintro ⟨name, payload⟩ hentry
  rw [Group.depth_setId]
  exact (payload.depth_toGroup_le name).trans (Members.depth_le.mp le_rfl _ hentry)

end Document

/-! ## What is exported to JSON -/

/-- Whether a single host value is one that export makes, floats apart: maps and records have
distinct keys, and groups become the ones or the others. -/
def HostValue.OfShape (shape : GroupShape) : HostValue → Prop
  | .map members => shape = .map ∧ (keys members).Nodup
  | .record _ fields => shape = .record ∧ (keys fields).Nodup
  | .float _ | .foreign _ => False
  | .null | .bool _ | .integer _ | .string _ | .list _ => True

/-- **What a value is exported to**, in either shape, is its floats and what export makes anyway. -/
theorem Value.forall_toHost {shape : GroupShape} {P : HostValue → Prop}
    (hP : ∀ y : HostValue, y.OfShape shape → P y) (v : Value)
    (h : ∀ w ∈ v.values, ∀ x, w = float x → P (.float x)) : ∀ y ∈ (v.toHost shape).values, P y := by
  induction v using Value.induction with
  | null | string _ | integer _ | bool _ => exact List.forall_mem_singleton.mpr (hP _ trivial)
  | float x => exact List.forall_mem_singleton.mpr (h (.float x) (by simp [values]) x rfl)
  | group g ihanonymous ihnamed =>
    obtain ⟨hanonymous, hnamed⟩ := forall_values_inside.mp (forall_values_group.mp h).2
    have hfields : ∀ entry ∈ mapValues (Value.toHost shape) g.fields,
        ∀ y ∈ entry.2.values, P y :=
      List.forall_mem_map.mpr (Group.forall_fields (fun v hv => ihanonymous v hv (hanonymous v hv))
        fun e he => ihnamed e he (hnamed e he))
    have hkeys : (keys (mapValues (Value.toHost shape) g.fields)).Nodup := by
      rw [keys_mapValues]
      exact nodup_keys_ofList _
    rw [toHost, Group.toHost_fields]
    cases shape with
    | record =>
      rw [HostValue.ofGroupFields, HostValue.values, List.forall_mem_cons, Members.forall_values]
      exact ⟨hP _ ⟨rfl, hkeys⟩, hfields⟩
    | map =>
      rw [HostValue.ofGroupFields, HostValue.values, List.forall_mem_cons, Members.forall_values]
      refine ⟨hP _ ⟨rfl, nodup_keys_insert hkeys _ _⟩, ?_⟩
      intro entry hentry
      rcases mem_insert hentry with hentry | rfl
      · exact hfields entry hentry
      · exact List.forall_mem_singleton.mpr (hP _ trivial)
  | array items ih =>
    obtain ⟨-, hitems⟩ := forall_values_array.mp h
    rw [toHost, Items.toHost_eq, HostValue.values, List.forall_mem_cons, HostValues.forall_values,
      List.forall_mem_map]
    exact ⟨hP _ trivial, fun d hd => ih d hd (hitems d hd)⟩

/-- The same of a document, whose root is a map in either shape. -/
theorem Document.forall_toHost {shape : GroupShape} {P : HostValue → Prop}
    (hP : ∀ y : HostValue, y.OfShape shape → P y) (doc : Document)
    (hroot : P (.map (doc.toHost shape).value))
    (h : ∀ x, Value.float x ∈ doc.values → P (.float x)) :
    ∀ y ∈ (HostValue.map (doc.toHost shape).value).values, P y := by
  rw [HostValue.values, List.forall_mem_cons, Members.forall_values]
  refine ⟨hroot, ?_⟩
  rw [toHost_value, mapValues, List.forall_mem_map]
  intro entry hentry
  refine Value.forall_toHost hP (.group entry.2) ?_
  rintro _ hw x rfl
  exact h x (List.mem_flatMap.mpr ⟨entry.2, (mem_latest hentry).1, hw⟩)

theorem HostValue.representable_of_ofShape {shape : GroupShape} {y : HostValue}
    (h : y.OfShape shape) : y.Representable := by
  cases y with
  | float x => exact h.elim
  | foreign typeName => exact h.elim
  | null | bool _ | integer _ | string _ | list _ | map _ | record _ _ => trivial

/-- What has finite floats only is exported to what JSON can represent, in either shape. -/
theorem Value.representable_toHost (shape : GroupShape) (v : Value)
    (h : ∀ w ∈ v.values, w.Finite) : ∀ y ∈ (v.toHost shape).values, y.Representable := by
  refine forall_toHost (fun _ => HostValue.representable_of_ofShape) v ?_
  rintro _ hw x rfl
  exact h _ hw

/-- So what a document exports and JSON cannot represent is a float in it. -/
theorem Document.unrepresentable_toHost {doc : Document} {shape : GroupShape} :
    ∀ y ∈ (HostValue.map (doc.toHost shape).value).values, ∀ what,
      y.unrepresentable? = some what →
        ∃ x, Value.float x ∈ doc.values ∧ x.isFinite = false ∧ what = .float x := by
  have hplain : ∀ y : HostValue, y.Representable → ∀ what, y.unrepresentable? = some what →
      ∃ x, Value.float x ∈ doc.values ∧ x.isFinite = false ∧ what = .float x := by
    intro y hy what hwhat
    rw [HostValue.unrepresentable?_eq_none_iff.mpr hy] at hwhat
    cases hwhat
  refine forall_toHost (fun y hy => hplain y (HostValue.representable_of_ofShape hy)) doc
    (hplain _ trivial) ?_
  intro x hx what hwhat
  cases hfinite : x.isFinite with
  | true => simp [HostValue.unrepresentable?, hfinite] at hwhat
  | false =>
    simp only [HostValue.unrepresentable?, hfinite, Bool.false_eq_true, if_false,
      Option.some.injEq] at hwhat
    exact ⟨x, hx, hfinite, hwhat.symm⟩

/-- **Only a float that is not finite keeps a document from having a JSON text.** -/
theorem Document.error_of_toJsonText {doc : Document} {layout : Json.Layout} {e : ExchangeError}
    (h : (doc.toJsonText layout).value = .error e) :
    ∃ x, Value.float x ∈ doc.values ∧ x.isFinite = false ∧ e = .notRepresentable (.float x) := by
  have hencode : HostValue.encodeRoot layout (doc.toHost .map).value = .error e := h
  rw [HostValue.encodeRoot_eq] at hencode
  cases hfirst : (HostValue.map (doc.toHost .map).value).values.findSome?
      HostValue.unrepresentable? with
  | none =>
    rw [hfirst] at hencode
    cases hencode
  | some what =>
    rw [hfirst] at hencode
    cases hencode
    obtain ⟨y, hy, hwhat⟩ := List.exists_of_findSome?_eq_some hfirst
    obtain ⟨x, hx, hfinite, rfl⟩ := unrepresentable_toHost y hy what hwhat
    exact ⟨x, hx, hfinite, rfl⟩

/-- **A document with finite floats has a JSON text**, in either layout. -/
theorem Document.exists_toJsonText {doc : Document} (hfinite : ∀ w ∈ doc.values, w.Finite)
    (layout : Json.Layout) : ∃ json, (doc.toJsonText layout).value = .ok json := by
  cases hjson : (doc.toJsonText layout).value with
  | ok json => exact ⟨json, rfl⟩
  | error e =>
    obtain ⟨x, hx, hinfinite, -⟩ := error_of_toJsonText hjson
    have hself : x.isFinite = true := hfinite _ hx
    rw [hself] at hinfinite
    cases hinfinite

/-! ## What is against a text -/

section Offences

variable {P : Offence → Prop}

theorem Values.forall_offences {vs : List Value} :
    (∀ e ∈ Values.offences vs, P e) ↔ ∀ v ∈ vs, ∀ e ∈ v.offences, P e := by
  induction vs with
  | nil => simp [Values.offences]
  | cons v rest ih => rw [Values.offences, List.forall_mem_append, ih, List.forall_mem_cons]

theorem Items.forall_offences {items : List Item} :
    (∀ e ∈ Items.offences items, P e) ↔ ∀ d ∈ items, ∀ e ∈ d.value.offences, P e := by
  induction items with
  | nil => simp [Items.offences]
  | cons d rest ih =>
    obtain ⟨key, v⟩ := d
    rw [Items.offences, List.forall_mem_append, ih, List.forall_mem_cons]

/-- The offences of named entries are their keys, and what is in their values. -/
theorem Named.forall_offences {named : List (String × Value)}
    (hkey : ∀ entry ∈ named, isWritableKey entry.1 = false → P (.invalidKey entry.1))
    (h : ∀ entry ∈ named, ∀ e ∈ entry.2.offences, P e) : ∀ e ∈ Named.offences named, P e := by
  induction named with
  | nil => simp [Named.offences]
  | cons entry rest ih =>
    obtain ⟨key, v⟩ := entry
    rw [List.forall_mem_cons] at h hkey
    rw [Named.offences, List.forall_mem_append, List.forall_mem_append]
    refine ⟨?_, h.1, ih hkey.2 h.2⟩
    split
    · simp
    · rename_i hunwritable
      exact List.forall_mem_singleton.mpr (hkey.1 (Bool.eq_false_iff.mpr hunwritable))

/-- Whether an offence is one of a single value, whatever lies inside it. -/
def Value.Offends (e : Offence) : Value → Prop
  | .group g => (isWritableId g.id = false ∧ e = .invalidId g.id) ∨
      ∃ entry ∈ g.named, isWritableKey entry.1 = false ∧ e = .invalidKey entry.1
  | .float x => x.isFinite = false ∧ e = .nonFinite x
  | .array _ | .null | .string _ | .integer _ | .bool _ => False

/-- **Every offence in a value is one of a single value in it.** -/
theorem Value.forall_offences (v : Value) (h : ∀ w ∈ v.values, ∀ e, w.Offends e → P e) :
    ∀ e ∈ v.offences, P e := by
  induction v using Value.induction with
  | null | string _ | integer _ | bool _ => simp [offences]
  | float x =>
    have hself := h (.float x) (by simp [values])
    cases hfinite : x.isFinite with
    | true => simp [offences, hfinite]
    | false =>
      rw [offences, if_neg (by simp [hfinite])]
      exact List.forall_mem_singleton.mpr (hself _ ⟨hfinite, rfl⟩)
  | group g ihanonymous ihnamed =>
    obtain ⟨hself, hinside⟩ := forall_values_group.mp h
    obtain ⟨hanonymous, hnamed⟩ := forall_values_inside.mp hinside
    obtain ⟨id, named, anonymous⟩ := g
    rw [offences, Group.offences, List.forall_mem_append, List.forall_mem_append]
    refine ⟨?_, ?_, ?_⟩
    · split
      · simp
      · rename_i hid
        exact List.forall_mem_singleton.mpr (hself _ (.inl ⟨Bool.eq_false_iff.mpr hid, rfl⟩))
    · exact Values.forall_offences.mpr fun v hv => ihanonymous v hv (hanonymous v hv)
    · exact Named.forall_offences
        (fun entry hentry hkey => hself _ (.inr ⟨entry, hentry, hkey, rfl⟩))
        fun entry hentry => ihnamed entry hentry (hnamed entry hentry)
  | array items ih =>
    obtain ⟨-, hitems⟩ := forall_values_array.mp h
    rw [offences]
    exact Items.forall_offences.mpr fun d hd => ih d hd (hitems d hd)

theorem Document.forall_offences {doc : Document}
    (h : ∀ w ∈ doc.values, ∀ e, w.Offends e → P e) : ∀ e ∈ doc.offences, P e := by
  rw [offences, List.forall_mem_flatMap]
  exact fun g hg => (Value.group g).forall_offences (forall_values_document.mp h g hg)

end Offences

/-- **The error of a document without a text** is an offence of some value in it. -/
theorem Document.exists_offends {doc : Document} {indent : Nat} {e : Offence}
    (h : doc.write indent = .error e) : ∃ w ∈ doc.values, w.Offends e := by
  have hmem : e ∈ doc.offences := by
    rw [write] at h
    split at h
    · cases h
    · rename_i first rest hoffences
      cases h
      exact hoffences ▸ List.mem_cons_self
  exact forall_offences (P := fun e => ∃ w ∈ doc.values, w.Offends e)
    (fun w hw e he => ⟨w, hw, he⟩) e hmem

/-- Whether an offence is about a name. -/
def Offence.OfName (e : Offence) : Prop :=
  ∃ name, e = .invalidId name ∨ e = .invalidKey name

/-- **Where all floats are finite, only names can be against a text.** -/
theorem Document.ofName_of_write {doc : Document} (h : ∀ w ∈ doc.values, w.Finite) {indent : Nat}
    {e : Offence} (hwrite : doc.write indent = .error e) : e.OfName := by
  obtain ⟨w, hw, he⟩ := exists_offends hwrite
  cases w with
  | float x =>
    have hfinite : x.isFinite = true := h _ hw
    obtain ⟨hinfinite, -⟩ := he
    rw [hfinite] at hinfinite
    cases hinfinite
  | group g =>
    rcases he with ⟨-, rfl⟩ | ⟨entry, -, -, rfl⟩
    · exact ⟨g.id, .inl rfl⟩
    · exact ⟨entry.1, .inr rfl⟩
  | array _ | null | string _ | integer _ | bool _ => exact he.elim

namespace Document

/-- What a document that is imported from JSON text is like. -/
theorem ofJsonText_eq_ok {text : String} {doc : Document}
    (h : (ofJsonText text).value = .ok doc) :
    doc.WellMade ∧ (∀ w ∈ doc.values, w.Finite) ∧ ∀ g ∈ doc, g.depth ≤ Tree.maxDepth := by
  rw [ofJsonText] at h
  split at h
  · rename_i root hroot
    obtain ⟨hrepresentable, hdepth⟩ := HostValue.decodeRoot_eq_ok hroot
    have hdoc : (ofHost root).value = doc := Except.ok.inj h
    subst hdoc
    refine ⟨fun w hw => (wellMade_ofHost root w hw).1, finite_ofHost hrepresentable, ?_⟩
    -- JSON text nests less deep than document text may
    have hless : Json.maxDepth ≤ Tree.maxDepth := by decide
    exact fun g hg => (depth_ofHost g hg).trans (hdepth.le.trans hless)
  · cases h

end Document

/-! ## The programs -/

namespace Command

theorem convert_toText {o : Options} {text written : String} {doc : Document}
    (himport : (Document.ofJsonText text).value = .ok doc)
    (hwrite : doc.write o.indent = .ok written) :
    (convert .toText o text).value.result = .ok (written, doc.length) := by
  rw [convert_result, libraryResult, himport]
  dsimp only
  rw [hwrite]

theorem convert_toJson {o : Options} {text json : String} {doc : Document}
    (hread : Document.read text = .ok doc) (hjson : (doc.toJsonText o.layout).value = .ok json) :
    (convert .toJson o text).value.result = .ok (json ++ "\n", doc.length) := by
  rw [convert_result, libraryResult, hread]
  dsimp only
  rw [hjson]

/-- **JSON by way of document text.** Let a document be imported from JSON text. Only names can
keep it from having a text. Where it has one, for any indentation, it is read back from it
unchanged, and it has a JSON text in either layout, which is then also that of what was read.
The two programs one after the other, the second with the output of the first for its input,
write just that, with a line break at the end. -/
theorem toJson_after_toText {text : String} {doc : Document}
    (himport : (Document.ofJsonText text).value = .ok doc) (indent : Nat) :
    (∀ e, doc.write indent = .error e → ∃ name, e = .invalidId name ∨ e = .invalidKey name) ∧
    ∀ written, doc.write indent = .ok written →
      Document.read written = .ok doc ∧
      (∀ layout, ∃ json, (doc.toJsonText layout).value = .ok json ∧
        ∀ again, Document.read written = .ok again →
          (again.toJsonText layout).value = .ok json) ∧
      ∀ (o₁ o₂ : Options) (d d₁ d₂ : Directory) (json : String), o₁.indent = indent →
        o₂.input = o₁.output → o₂.compact = false → (doc.toJsonText .pretty).value = .ok json →
        d.readText? o₁.input = some text → d.writeText? o₁.output written = some d₁ →
        d₁.writeText? o₂.output (json ++ "\n") = some d₂ →
        ((d.run .toText o₁).1.exitCode = 0 ∧ (d.run .toText o₁).2 = d₁) ∧
          ((d₁.run .toJson o₂).1.exitCode = 0 ∧ (d₁.run .toJson o₂).2 = d₂) ∧
          d₂.readText? o₂.output = some (json ++ "\n") := by
  obtain ⟨hmade, hfinite, hdepth⟩ := Document.ofJsonText_eq_ok himport
  refine ⟨fun e he => Document.ofName_of_write hfinite he, ?_⟩
  intro written hwrite
  have hread := (Document.readBack_shallow hmade hwrite hdepth Registry.standard).2.2
  refine ⟨hread, ?_, ?_⟩
  · intro layout
    obtain ⟨json, hjson⟩ := Document.exists_toJsonText hfinite layout
    refine ⟨json, hjson, ?_⟩
    intro again hagain
    obtain rfl : doc = again := Except.ok.inj (hread.symm.trans hagain)
    exact hjson
  · rintro o₁ o₂ d d₁ d₂ json rfl hinput hcompact hjson hstart hfirst hsecond
    have hlayout : (doc.toJsonText o₂.layout).value = .ok json := by
      rw [Options.layout, hcompact]
      exact hjson
    -- the second program reads what the first has written
    have hmiddle : d₁.readText? o₂.input = some written := by
      rw [hinput]
      exact Directory.readText?_writeText? hfirst
    refine ⟨?_, ?_, Directory.readText?_writeText? hsecond⟩
    · exact Directory.run_of_converted hstart (convert_toText himport hwrite) hfirst
    · exact Directory.run_of_converted hmiddle (convert_toJson hread hlayout) hsecond

/-- A list on top, which is wrapped in a group: both programs run, and what is in the last file is
the export of what was imported. -/
theorem toJson_after_toText_wrapped :
    ∃ d : Directory, d.readText? "i" = some "\x7b\"p\":[-0.0]\x7d" ∧
      (((d.run .toText ⟨"i", "m", false, false, 2, false, 0⟩).2.run .toJson
          ⟨"m", "o", false, false, 2, false, 0⟩).2).readText? "o" =
        some ("\x7b\n  \"p\": \x7b\n    \"0\": [\n      -0.0\n    ],\n" ++
          "    \"__id__\": \"p\"\n  \x7d\n\x7d" ++ "\n") := by
  have hjson : ((Document.ofJsonText "\x7b\"p\":[-0.0]\x7d").value.toOption.bind fun doc =>
      (doc.toJsonText .pretty).value.toOption) = some
        ("\x7b\n  \"p\": \x7b\n    \"0\": [\n      -0.0\n    ],\n" ++
          "    \"__id__\": \"p\"\n  \x7d\n\x7d") := by
    decide +kernel
  have hwritten : ((Document.ofJsonText "\x7b\"p\":[-0.0]\x7d").value.toOption.bind fun doc =>
      (doc.write 2).toOption) = some "(p\n  [-0.0]\n)\n" := by
    decide +kernel
  cases himport : (Document.ofJsonText "\x7b\"p\":[-0.0]\x7d").value with
  | error e =>
    rw [himport] at hjson
    cases hjson
  | ok doc =>
    rw [himport] at hjson hwritten
    cases hwrite : doc.write 2 with
    | error e =>
      have hnone : (doc.write 2).toOption = some "(p\n  [-0.0]\n)\n" := hwritten
      rw [hwrite] at hnone
      cases hnone
    | ok written =>
      obtain ⟨-, hall⟩ := toJson_after_toText himport 2
      obtain ⟨-, hexport, hprograms⟩ := hall written hwrite
      obtain ⟨json, hpretty, -⟩ := hexport .pretty
      have htext : (doc.toJsonText .pretty).value.toOption = some _ := hjson
      rw [hpretty] at htext
      obtain rfl := Option.some.inj htext
      obtain ⟨d, hstart, hfree⟩ := Directory.writeText?_letter .empty "i" (by simp) rfl
        "\x7b\"p\":[-0.0]\x7d"
      obtain ⟨d₁, hsecond, hfree₁⟩ := Directory.writeText?_letter d "m" (by simp)
        ((hfree "m" (by decide)).trans rfl) written
      obtain ⟨d₂, hthird, -⟩ := Directory.writeText?_letter d₁ "o" (by simp)
        ((hfree₁ "o" (by decide)).trans ((hfree "o" (by decide)).trans rfl)) _
      have hread := Directory.readText?_writeText? hstart
      obtain ⟨⟨-, hmiddle⟩, ⟨-, hend⟩, hlast⟩ := hprograms
        ⟨"i", "m", false, false, 2, false, 0⟩ ⟨"m", "o", false, false, 2, false, 0⟩ d d₁ d₂ _
        rfl rfl rfl hpretty hread hsecond hthird
      refine ⟨d, hread, ?_⟩
      rw [hmiddle, hend]
      exact hlast

end Command

end DataLisp
