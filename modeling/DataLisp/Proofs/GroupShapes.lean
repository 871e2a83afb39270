/-
Groups as maps and groups as records, in JSON.

A document is exported with its groups as maps that hold the id among their members, or as
records that have it for a type name. JSON knows no records, so there the type name is put among
the members after all. The two ways to the same text differ in when that is done: the map gets
its id before its members are converted, and the object of a record gets it after. For all
members of other keys this makes no difference. A named entry under the reserved key is different:
the map never converts it, as the id has taken its place by then, and the record converts it only
to drop the result. So if that conversion can fail, the ways part, and otherwise they are one
(`Value.toJson_toHost`): the same text, or the same first thing that JSON cannot represent.
-/
import DataLisp.Proofs.Conversion

set_option autoImplicit false

namespace DataLisp

open OrderedMap

/-! ## Converting members -/

section Members

variable {members : List (String × HostValue)}

/-- Members are converted one after the other, and only what each converts to counts. -/
theorem Members.toJson_congr {α : Type} {f g : α → HostValue} {m : List (String × α)}
    (h : ∀ entry ∈ m, (f entry.2).toJson = (g entry.2).toJson) :
    Members.toJson (mapValues f m) = Members.toJson (mapValues g m) := by
  induction m with
  | nil => rfl
  | cons entry rest ih =>
    obtain ⟨name, a⟩ := entry
    rw [List.forall_mem_cons] at h
    rw [mapValues_cons, mapValues_cons, Members.toJson, Members.toJson, h.1, ih h.2]

theorem HostValues.toJson_congr {α : Type} {f g : α → HostValue} {as : List α}
    (h : ∀ a ∈ as, (f a).toJson = (g a).toJson) :
    HostValues.toJson (as.map f) = HostValues.toJson (as.map g) := by
  induction as with
  | nil => rfl
  | cons a rest ih =>
    rw [List.forall_mem_cons] at h
    rw [List.map_cons, List.map_cons, HostValues.toJson, HostValues.toJson, h.1, ih h.2]

/-- **A member can be set before or after the conversion**, if what it replaces would have been
converted without an error. -/
theorem Members.toJson_insert {key : String} {x : HostValue} {v : Json} (hx : x.toJson = .ok v)
    (hold : ∀ entry ∈ members, entry.1 = key → ∃ w, entry.2.toJson = .ok w) :
    Members.toJson (insert members key x) = do return insert (← Members.toJson members) key v := by
  induction members with
  | nil =>
    rw [OrderedMap.insert, Members.toJson, Members.toJson, hx]
    rfl
  | cons entry rest ih =>
    obtain ⟨k, y⟩ := entry
    rw [List.forall_mem_cons] at hold
    by_cases hk : k = key
    · -- the old value is converted on one side only, which is not seen as it does not fail
      obtain ⟨w, hw⟩ := hold.1 hk
      dsimp only at hw
      rw [OrderedMap.insert, if_pos hk, Members.toJson, Members.toJson, hx, hw]
      cases Members.toJson rest with
      | error what => rfl
      | ok more =>
        show Except.ok ((key, v) :: more) = Except.ok (insert ((k, w) :: more) key v)
        rw [OrderedMap.insert, if_pos hk]
    · rw [OrderedMap.insert, if_neg hk, Members.toJson, Members.toJson, ih hold.2]
      cases y.toJson with
      | error what => rfl
      | ok w =>
        cases Members.toJson rest with
        | error what => rfl
        | ok more =>
          show Except.ok ((k, w) :: insert more key v) = Except.ok (insert ((k, w) :: more) key v)
          rw [OrderedMap.insert, if_neg hk]

end Members

/-! ## The fields of a group -/

namespace Group

/-- Only a named entry can stand under the reserved key, since that key is no position. -/
theorem mem_named_of_mem_fields {g : Group} {entry : String × Value} (h : entry ∈ g.fields)
    (hkey : entry.1 = HostValue.idKey) : entry ∈ g.named := by
  rcases List.mem_append.mp (mem_ofList h) with h | h
  · exact h
  · obtain ⟨⟨i, hi⟩, -⟩ := mem_numbered h
    exact absurd (hkey.symm.trans hi) (idKey_ne_position i)

end Group

/-! ## Both shapes -/

/-- Whether a single value is no group, or one in which JSON has all that stands under the
reserved key. -/
def Value.FiniteId : Value → Prop
  | .group g => ∀ entry ∈ g.named, entry.1 = HostValue.idKey → ∀ w ∈ entry.2.values, w.Finite
  | .null | .string _ | .integer _ | .float _ | .bool _ | .array _ => True

/-- **A value is converted to the same JSON in both shapes**, or with the same error. -/
theorem Value.toJson_toHost (v : Value) (h : ∀ w ∈ v.values, w.FiniteId) :
    (v.toHost .record).toJson = (v.toHost .map).toJson := by
  induction v using Value.induction with
  | null | string _ | integer _ | float _ | bool _ => rfl
  | group g ihanonymous ihnamed =>
    obtain ⟨hid, hinside⟩ := forall_values_group.mp h
    obtain ⟨hanonymous, hnamed⟩ := forall_values_inside.mp hinside
    have hfields : ∀ entry ∈ g.fields,
        (entry.2.toHost .record).toJson = (entry.2.toHost .map).toJson :=
      Group.forall_fields (fun v hv => ihanonymous v hv (hanonymous v hv))
        fun entry hentry => ihnamed entry hentry (hnamed entry hentry)
    -- what the id replaces in the map is a named entry, and that is converted without an error
    have hreplaced : ∀ entry ∈ mapValues (Value.toHost .map) g.fields,
        entry.1 = HostValue.idKey → ∃ w, entry.2.toJson = .ok w := by
      refine List.forall_mem_map.mpr ?_
      intro entry hentry hkey
      have hfinite := hid entry (Group.mem_named_of_mem_fields hentry hkey) hkey
      exact ⟨_, HostValue.toJson_of_representable (entry.2.representable_toHost .map hfinite)⟩
    rw [toHost, toHost, Group.toHost_fields, Group.toHost_fields, HostValue.ofGroupFields,
      HostValue.ofGroupFields, HostValue.toJson, HostValue.toJson, Members.toJson_congr hfields,
      Members.toJson_insert (v := .string g.id) rfl hreplaced]
    cases Members.toJson (mapValues (Value.toHost .map) g.fields) <;> rfl
  | array items ih =>
    obtain ⟨-, hitems⟩ := forall_values_array.mp h
    rw [toHost, toHost, Items.toHost_eq, Items.toHost_eq, HostValue.toJson, HostValue.toJson,
      HostValues.toJson_congr fun d hd => ih d hd (hitems d hd)]

namespace Document

/-- **The two shapes of groups give the same JSON.** If no entry under the reserved key holds a
float that is not finite, at any depth, then a document with its groups as records is encoded as
it is with its groups as maps, in both layouts: as the same text or with the same error. The
latter is how a document is written as JSON. -/
theorem encodeRoot_record {doc : Document}
    (h : ∀ g : Group, Value.group g ∈ doc.values → ∀ v, (HostValue.idKey, v) ∈ g.named →
      ∀ x, Value.float x ∈ v.values → x.isFinite = true) (layout : Json.Layout) :
    HostValue.encodeRoot layout (doc.toHost .record).value =
        HostValue.encodeRoot layout (doc.toHost .map).value ∧
      HostValue.encodeRoot layout (doc.toHost .map).value = (doc.toJsonText layout).value := by
  refine ⟨?_, rfl⟩
  have hid : ∀ w ∈ doc.values, w.FiniteId := by
    intro w hw
    cases w with
    | group g =>
      rintro ⟨_, v⟩ hentry rfl w hw'
      cases w with
      | float x => exact h g hw v hentry x hw'
      | null | string _ | integer _ | bool _ | group _ | array _ => trivial
    | null | string _ | integer _ | float _ | bool _ | array _ => trivial
  have hgroups : ∀ entry ∈ doc.latest,
      (entry.2.toHost .record).toJson = (entry.2.toHost .map).toJson := by
    intro entry hentry
    obtain ⟨hmem, -⟩ := mem_latest hentry
    exact Value.toJson_toHost (.group entry.2) (forall_values_document.mp hid entry.2 hmem)
  rw [HostValue.encodeRoot, HostValue.encodeRoot, toHost_value, toHost_value,
    Members.toJson_congr hgroups]

/-- A repeated id, a named entry under the position of an anonymous one, one under the reserved
key, and a group inside an array; and, beside an entry under the reserved key that stays out of
it, a float that stops the encoding. -/
theorem encodeRoot_record_reserved :
    HostValue.encodeRoot .compact (toHost .record [⟨"a", [("x", .null)], []⟩, ⟨"a",
        [("0", .bool true), ("__id__", .integer 1)],
        [.array [⟨none, .group ⟨"b", [], [.null]⟩⟩]]⟩]).value =
      .ok "\x7b\"a\":\x7b\"0\":[\x7b\"0\":null,\"__id__\":\"b\"\x7d],\"__id__\":\"a\"\x7d\x7d" ∧
    HostValue.encodeRoot .pretty (toHost .record [⟨"a", [("__id__", .integer 1)],
        [.float (.infinity true)]⟩]).value =
      .error (.notRepresentable (.float (.infinity true))) := by
  refine ⟨?_, ?_⟩
  · rw [(encodeRoot_record _ .compact).1]
    · rfl
    · simp [Document.values, Value.values, Group.values, Values.values, Named.values, Items.values,
        HostValue.idKey]
  · rw [(encodeRoot_record _ .pretty).1]
    · rfl
    · simp [Document.values, Value.values, Group.values, Values.values, Named.values,
        HostValue.idKey]

/-- Under the reserved key itself such a float stops the encoding of records only. -/
example : (HostValue.encodeRoot .compact (toHost .record [⟨"a",
      [("__id__", .float (.infinity true))], []⟩]).value).isOk = false ∧
    (HostValue.encodeRoot .compact (toHost .map [⟨"a",
      [("__id__", .float (.infinity true))], []⟩]).value).isOk = true := by
  decide

end Document

end DataLisp
