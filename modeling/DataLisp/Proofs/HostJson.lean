/-
Host data and JSON text.

A root map is written as JSON text exactly if JSON can represent everything in it; the error
names the first thing in it, from the outside in and in order, that JSON cannot represent
(`toJson_eq`). What is read from the text is the root with every record as a map that holds its
type name under the reserved key (`HostValue.unrecorded`), and nothing else is changed, whatever
the layout, if its doubles are such as are read back exactly (`HostValue.ReadsExactly`). Whether a
map is read at all does not depend on that.

A record is encoded as the map of its fields with the type name put in, and it is unrecorded to
that same map; so it needs no argument of its own beside that of maps (`json_record`,
`unrecorded_record`).
-/
import DataLisp.Host.JsonText
import DataLisp.Proofs.Exchange
import DataLisp.Proofs.JsonText
import Mathlib.Order.Basic

set_option autoImplicit false

namespace DataLisp

open OrderedMap

/-! ## All values of a host value -/

mutual

/-- A host value and all values inside it, each before what lies inside it. -/
def HostValue.values : HostValue → List HostValue
  | .list items => .list items :: HostValues.values items
  | .map members => .map members :: Members.values members
  | .record typeName fields => .record typeName fields :: Members.values fields
  | .null => [.null]
  | .bool b => [.bool b]
  | .integer i => [.integer i]
  | .float x => [.float x]
  | .string s => [.string s]
  | .foreign typeName => [.foreign typeName]

/-- All values of the items of a list. -/
def HostValues.values : List HostValue → List HostValue
  | [] => []
  | x :: rest => x.values ++ HostValues.values rest

/-- All values of members. -/
def Members.values : List (String × HostValue) → List HostValue
  | [] => []
  | (_, x) :: rest => x.values ++ Members.values rest

end

mutual

/-- How many lists, maps and records lie inside each other in a host value. -/
def HostValue.depth : HostValue → Nat
  | .list items => HostValues.depth items + 1
  | .map members => Members.depth members + 1
  | .record _ fields => Members.depth fields + 1
  | .null | .bool _ | .integer _ | .float _ | .string _ | .foreign _ => 0

/-- The same for the items of a list. -/
def HostValues.depth : List HostValue → Nat
  | [] => 0
  | x :: rest => max x.depth (HostValues.depth rest)

/-- The same for members. -/
def Members.depth : List (String × HostValue) → Nat
  | [] => 0
  | (_, x) :: rest => max x.depth (Members.depth rest)

end

section Inside

variable {P : HostValue → Prop} {n : Nat} {items : List HostValue}
  {members : List (String × HostValue)}

/-- What is true throughout a list is true throughout its items. -/
theorem HostValues.forall_values :
    (∀ y ∈ HostValues.values items, P y) ↔ ∀ x ∈ items, ∀ y ∈ x.values, P y := by
  induction items with
  | nil => simp [HostValues.values]
  | cons x rest ih => rw [HostValues.values, List.forall_mem_append, ih, List.forall_mem_cons]

/-- The same for members, whatever their keys. -/
theorem Members.forall_values :
    (∀ y ∈ Members.values members, P y) ↔ ∀ entry ∈ members, ∀ y ∈ entry.2.values, P y := by
  induction members with
  | nil => simp [Members.values]
  | cons entry rest ih => rw [Members.values, List.forall_mem_append, ih, List.forall_mem_cons]

theorem HostValues.depth_le : HostValues.depth items ≤ n ↔ ∀ x ∈ items, x.depth ≤ n := by
  induction items with
  | nil => simp [HostValues.depth]
  | cons x rest ih => rw [HostValues.depth, Nat.max_le, ih, List.forall_mem_cons]

theorem Members.depth_le : Members.depth members ≤ n ↔ ∀ entry ∈ members, entry.2.depth ≤ n := by
  induction members with
  | nil => simp [Members.depth]
  | cons entry rest ih => rw [Members.depth, Nat.max_le, ih, List.forall_mem_cons]

end Inside

/-- What the host sees to in one value: the keys of maps and the fields of records are
distinct. -/
def HostValue.WellMade : HostValue → Prop
  | .map members => (keys members).Nodup
  | .record _ fields => (keys fields).Nodup
  | .null | .bool _ | .integer _ | .float _ | .string _ | .list _ | .foreign _ => True

/-! ## Records as maps -/

mutual

/-- A host value with every record in it as a map of its fields that holds its type name under
the reserved key. A field of that key gives its place to the name. -/
def HostValue.unrecorded : HostValue → HostValue
  | .list items => .list (HostValues.unrecorded items)
  | .map members => .map (Members.unrecorded members)
  | .record typeName fields =>
    .map (insert (Members.unrecorded fields) HostValue.idKey (.string typeName))
  | .null => .null
  | .bool b => .bool b
  | .integer i => .integer i
  | .float x => .float x
  | .string s => .string s
  | .foreign typeName => .foreign typeName

/-- The same inside the items of a list. -/
def HostValues.unrecorded : List HostValue → List HostValue
  | [] => []
  | x :: rest => x.unrecorded :: HostValues.unrecorded rest

/-- The same inside members. -/
def Members.unrecorded : List (String × HostValue) → List (String × HostValue)
  | [] => []
  | (name, x) :: rest => (name, x.unrecorded) :: Members.unrecorded rest

end

theorem HostValues.unrecorded_eq (items : List HostValue) :
    HostValues.unrecorded items = items.map HostValue.unrecorded := by
  induction items with
  | nil => rfl
  | cons x rest ih => rw [HostValues.unrecorded, ih, List.map_cons]

theorem Members.unrecorded_eq (members : List (String × HostValue)) :
    Members.unrecorded members = mapValues HostValue.unrecorded members := by
  induction members with
  | nil => rfl
  | cons entry rest ih =>
    rw [Members.unrecorded, ih]
    rfl

namespace HostValue

/-- The members of the map that stands for a record. -/
def recordMembers (typeName : String) (fields : List (String × HostValue)) :
    List (String × HostValue) :=
  insert fields idKey (.string typeName)

/-- A record becomes the map that stands for it, with its fields treated alike. -/
theorem unrecorded_record (typeName : String) (fields : List (String × HostValue)) :
    (record typeName fields).unrecorded = (map (recordMembers typeName fields)).unrecorded := by
  rw [unrecorded, unrecorded, Members.unrecorded_eq, Members.unrecorded_eq, recordMembers,
    mapValues_insert]
  rfl

/-- What is true of the fields of a record and of texts is true of the map that stands for it. -/
theorem forall_recordMembers {P : HostValue → Prop} {typeName : String}
    {fields : List (String × HostValue)} (hname : P (.string typeName))
    (hfields : ∀ entry ∈ fields, P entry.2) :
    ∀ entry ∈ recordMembers typeName fields, P entry.2 := by
  intro entry hentry
  rcases mem_insert hentry with hentry | rfl
  · exact hfields entry hentry
  · exact hname

/-- **Records as maps nest no deeper.** A field under the reserved key is lost, and what lies in
it with it. -/
theorem depth_unrecorded_le (x : HostValue) : x.unrecorded.depth ≤ x.depth := by
  induction x using HostValue.induction with
  | null | bool _ | integer _ | float _ | string _ | foreign _ => exact Nat.le_refl 0
  | list items ih =>
    rw [unrecorded, HostValues.unrecorded_eq, depth, depth]
    refine Nat.succ_le_succ (HostValues.depth_le.mpr (List.forall_mem_map.mpr ?_))
    exact fun x hx => (ih x hx).trans (HostValues.depth_le.mp le_rfl x hx)
  | map members ih =>
    rw [unrecorded, Members.unrecorded_eq, depth, depth]
    refine Nat.succ_le_succ (Members.depth_le.mpr (List.forall_mem_map.mpr ?_))
    exact fun entry hentry => (ih entry hentry).trans (Members.depth_le.mp le_rfl entry hentry)
  | record typeName fields ih =>
    -- the name takes a place that nothing deep is left in
    rw [unrecorded_record, unrecorded, Members.unrecorded_eq, depth, depth]
    refine Nat.succ_le_succ (Members.depth_le.mpr (List.forall_mem_map.mpr ?_))
    refine forall_recordMembers (P := fun y => y.unrecorded.depth ≤ _) (Nat.zero_le _) ?_
    exact fun entry hentry => (ih entry hentry).trans (Members.depth_le.mp le_rfl entry hentry)

end HostValue

/-! ## What JSON represents -/

/-- Whether JSON can represent a single value: a float has to be finite, and a foreign value
cannot be represented at all. -/
def HostValue.Representable : HostValue → Prop
  | .float x => x.isFinite = true
  | .foreign _ => False
  | .null | .bool _ | .integer _ | .string _ | .list _ | .map _ | .record _ _ => True

/-- The single value as something that JSON cannot represent, if it is. -/
def HostValue.unrepresentable? : HostValue → Option Unrepresentable
  | .float x => if x.isFinite then none else some (.float x)
  | .foreign typeName => some (.foreign typeName)
  | .null | .bool _ | .integer _ | .string _ | .list _ | .map _ | .record _ _ => none

/-- A value is an offence exactly if JSON cannot represent it. -/
theorem HostValue.unrepresentable?_eq_none_iff {x : HostValue} :
    x.unrepresentable? = none ↔ x.Representable := by
  cases x <;> simp [unrepresentable?, Representable]

mutual

/-- The JSON value of a host value, with null for foreign values. -/
def HostValue.json : HostValue → Json
  | .list items => .array (HostValues.json items)
  | .map members => .object (Members.json members)
  | .record typeName fields =>
    .object (insert (Members.json fields) HostValue.idKey (.string typeName))
  | .null | .foreign _ => .null
  | .bool b => .bool b
  | .integer i => .integer i
  | .float x => .float x
  | .string s => .string s

/-- The JSON values of the items of a list. -/
def HostValues.json : List HostValue → List Json
  | [] => []
  | x :: rest => x.json :: HostValues.json rest

/-- The JSON values of members. -/
def Members.json : List (String × HostValue) → List (String × Json)
  | [] => []
  | (name, x) :: rest => (name, x.json) :: Members.json rest

end

theorem HostValues.json_eq (items : List HostValue) :
    HostValues.json items = items.map HostValue.json := by
  induction items with
  | nil => rfl
  | cons x rest ih => rw [HostValues.json, ih, List.map_cons]

theorem Members.json_eq (members : List (String × HostValue)) :
    Members.json members = mapValues HostValue.json members := by
  induction members with
  | nil => rfl
  | cons entry rest ih =>
    rw [Members.json, ih]
    rfl

/-- The JSON value of a record is that of the map that stands for it. -/
theorem HostValue.json_record (typeName : String) (fields : List (String × HostValue)) :
    (record typeName fields).json = (map (recordMembers typeName fields)).json := by
  rw [json, json, Members.json_eq, Members.json_eq, recordMembers, mapValues_insert]
  rfl

/-- What a conversion gives that meets the given values in order: the first of them that JSON
cannot represent as its error, or else its result. -/
def HostValue.encoded {α : Type} (values : List HostValue) (result : α) :
    Except Unrepresentable α :=
  (values.findSome? unrepresentable?).elim (.ok result) .error

/-- One conversion after another: the first offence of the first counts, or else that of the
second. -/
theorem HostValue.encoded_append {α β γ : Type} (before after : List HostValue) (a : α) (b : β)
    (f : α → β → γ) :
    (do return f (← encoded before a) (← encoded after b)) = encoded (before ++ after) (f a b) := by
  rw [encoded, encoded, encoded, List.findSome?_append]
  cases before.findSome? HostValue.unrepresentable? with
  | some what => rfl
  | none => cases after.findSome? HostValue.unrepresentable? <;> rfl

theorem HostValue.encoded_map {α β : Type} (values : List HostValue) (a : α) (f : α → β) :
    (do return f (← encoded values a)) = encoded values (f a) := by
  rw [encoded, encoded]
  cases values.findSome? HostValue.unrepresentable? <;> rfl

/-- The items of a list are converted in their order. -/
theorem HostValues.toJson_eq {items : List HostValue}
    (h : ∀ x ∈ items, x.toJson = HostValue.encoded x.values x.json) :
    HostValues.toJson items =
      HostValue.encoded (HostValues.values items) (HostValues.json items) := by
  induction items with
  | nil => rfl
  | cons x rest ih =>
    rw [List.forall_mem_cons] at h
    rw [HostValues.toJson, h.1, ih h.2]
    exact HostValue.encoded_append _ _ _ _ List.cons

/-- So are members. -/
theorem Members.toJson_eq {members : List (String × HostValue)}
    (h : ∀ entry ∈ members, entry.2.toJson = HostValue.encoded entry.2.values entry.2.json) :
    Members.toJson members =
      HostValue.encoded (Members.values members) (Members.json members) := by
  induction members with
  | nil => rfl
  | cons entry rest ih =>
    obtain ⟨name, x⟩ := entry
    rw [List.forall_mem_cons] at h
    rw [Members.toJson, h.1, ih h.2]
    exact HostValue.encoded_append _ _ _ _ fun v more => (name, v) :: more

/-- **Conversion to JSON fails at the first value that JSON cannot represent**, and nowhere
else. -/
theorem HostValue.toJson_eq (x : HostValue) : x.toJson = HostValue.encoded x.values x.json := by
  induction x using HostValue.induction with
  | null | bool _ | integer _ | string _ | foreign _ => rfl
  | float x =>
    rw [toJson, encoded, values, List.findSome?_singleton, unrepresentable?]
    split <;> rfl
  | list items ih =>
    rw [toJson, HostValues.toJson_eq ih]
    exact encoded_map _ _ Json.array
  | map members ih =>
    rw [toJson, Members.toJson_eq ih]
    exact encoded_map _ _ Json.object
  | record typeName fields ih =>
    rw [toJson, Members.toJson_eq ih]
    exact encoded_map _ _ fun members => Json.object (insert members idKey (.string typeName))

/-- Without an offence the conversion gives the JSON value. -/
theorem HostValue.toJson_of_representable {x : HostValue} (h : ∀ y ∈ x.values, y.Representable) :
    x.toJson = .ok x.json := by
  have hnone : x.values.findSome? unrepresentable? = none :=
    List.findSome?_eq_none_iff.mpr fun y hy => unrepresentable?_eq_none_iff.mpr (h y hy)
  rw [toJson_eq, encoded, hnone]
  rfl

/-! ## What is read back -/

theorem HostValues.ofJson_eq (items : List Json) :
    HostValues.ofJson items = items.map HostValue.ofJson := by
  induction items with
  | nil => rfl
  | cons v rest ih => rw [HostValues.ofJson, ih, List.map_cons]

theorem Members.ofJson_eq (members : List (String × Json)) :
    Members.ofJson members = mapValues HostValue.ofJson members := by
  induction members with
  | nil => rfl
  | cons member rest ih =>
    rw [Members.ofJson, ih]
    rfl

/-- A JSON value nests as deep as its host value. -/
theorem HostValue.depth_ofJson (v : Json) : (ofJson v).depth = v.depth := by
  -- the depth of a list is a maximum, which is easier to bound than to compute
  refine eq_of_forall_ge_iff fun n => ?_
  induction v using Json.induction generalizing n with
  | null | bool _ | integer _ | float _ | string _ => rfl
  | array items ih =>
    rw [ofJson, HostValues.ofJson_eq, depth, Json.depth]
    cases n with
    | zero => simp
    | succ n =>
      rw [Nat.succ_le_succ_iff, Nat.succ_le_succ_iff, HostValues.depth_le, Json.itemDepth_le,
        List.forall_mem_map]
      exact forall₂_congr fun v hv => ih v hv n
  | object members ih =>
    rw [ofJson, Members.ofJson_eq, depth, Json.depth]
    cases n with
    | zero => simp
    | succ n =>
      rw [Nat.succ_le_succ_iff, Nat.succ_le_succ_iff, Members.depth_le, Json.memberDepth_le,
        mapValues, List.forall_mem_map]
      exact forall₂_congr fun member hmember => ih member hmember n

namespace HostValue

/-- What is asked of each value in a root map for it to be read back. -/
def Plain (x : HostValue) : Prop :=
  x.WellMade ∧ x.Representable

/-- The host value of the JSON value has its records as maps. -/
theorem ofJson_json (x : HostValue) (h : ∀ y ∈ x.values, y.Plain) :
    ofJson x.json = x.unrecorded := by
  induction x using HostValue.induction with
  | null | bool _ | integer _ | float _ | string _ => rfl
  | foreign typeName => exact (h (.foreign typeName) (by simp [values])).2.elim
  | list items ih =>
    rw [values, List.forall_mem_cons, HostValues.forall_values] at h
    rw [json, HostValues.json_eq, ofJson, HostValues.ofJson_eq, List.map_map, unrecorded,
      HostValues.unrecorded_eq]
    exact congrArg list (List.map_congr_left fun x hx => ih x hx (h.2 x hx))
  | map members ih =>
    rw [values, List.forall_mem_cons, Members.forall_values] at h
    rw [json, Members.json_eq, ofJson, Members.ofJson_eq, mapValues_mapValues, unrecorded,
      Members.unrecorded_eq, mapValues_congr fun entry hentry => ih entry hentry (h.2 entry hentry)]
  | record typeName fields ih =>
    rw [values, List.forall_mem_cons, Members.forall_values] at h
    -- on both sides a record is the map that stands for it
    rw [json_record, json, Members.json_eq, ofJson, Members.ofJson_eq, mapValues_mapValues,
      unrecorded_record, unrecorded, Members.unrecorded_eq, mapValues_congr]
    refine forall_recordMembers (P := fun y => ofJson y.json = y.unrecorded) rfl ?_
    exact fun entry hentry => ih entry hentry (h.2 entry hentry)

/-- What holds of every value of the JSON value: it is enough to look at the floats of the host
value, and else at what JSON text can say of any value. -/
theorem forall_json {P : Json → Prop}
    (hother : ∀ w : Json, (∀ z, w ≠ .float z) →
      (∀ members, w = .object members → (keys members).Nodup) → P w)
    (x : HostValue) (h : ∀ y ∈ x.values, y.WellMade ∧ ∀ z, y = .float z → P (.float z)) :
    ∀ w ∈ x.json.values, P w := by
  have hscalar : ∀ w : Json, w.values = [w] → P w → ∀ u ∈ w.values, P u := by
    intro w hw hP
    rw [hw]
    exact List.forall_mem_singleton.mpr hP
  induction x using HostValue.induction with
  | null | bool _ | integer _ | string _ | foreign _ =>
    exact hscalar _ rfl (hother _ (by simp [json]) (by simp [json]))
  | float x => exact hscalar _ rfl ((h (.float x) (by simp [values])).2 x rfl)
  | list items ih =>
    rw [values, List.forall_mem_cons, HostValues.forall_values] at h
    rw [json, HostValues.json_eq]
    refine Json.forall_values_array.mpr ⟨hother _ (by simp) (by simp), List.forall_mem_map.mpr ?_⟩
    exact fun x hx => ih x hx (h.2 x hx)
  | map members ih =>
    rw [values, List.forall_mem_cons, Members.forall_values] at h
    rw [json, Members.json_eq]
    refine Json.forall_values_object.mpr ⟨hother _ (by simp) ?_, List.forall_mem_map.mpr ?_⟩
    · rintro _ ⟨⟩
      rw [keys_mapValues]
      exact h.1.1
    · exact fun entry hentry => ih entry hentry (h.2 entry hentry)
  | record typeName fields ih =>
    rw [values, List.forall_mem_cons, Members.forall_values] at h
    rw [json_record, json, Members.json_eq]
    refine Json.forall_values_object.mpr ⟨hother _ (by simp) ?_, List.forall_mem_map.mpr ?_⟩
    · rintro _ ⟨⟩
      rw [keys_mapValues]
      exact nodup_keys_insert h.1.1 _ _
    · refine forall_recordMembers (P := fun y => ∀ w ∈ y.json.values, P w) ?_ ?_
      · exact hscalar _ rfl (hother _ (by simp [json]) (by simp [json]))
      · exact fun entry hentry => ih entry hentry (h.2 entry hentry)

/-- Members come to be distinct and floats finite, so the JSON value can be written and read. -/
theorem wellMade_json (x : HostValue) (h : ∀ y ∈ x.values, y.Plain) :
    ∀ w ∈ x.json.values, w.WellMade := by
  refine forall_json ?_ x ?_
  · intro w hfloat hobject
    cases w with
    | float z => exact absurd rfl (hfloat z)
    | object members => exact hobject members rfl
    | null | bool _ | integer _ | string _ | array _ => trivial
  · rintro y hy
    refine ⟨(h y hy).1, ?_⟩
    rintro z rfl
    exact (h _ hy).2

/-- A double that is read back from JSON text, if there is one. -/
def ReadsExactly : HostValue → Prop
  | .float x => x.ReadsExactly
  | .null | .bool _ | .integer _ | .string _ | .list _ | .map _ | .record _ _ | .foreign _ => True

/-- The floats of the JSON value are those of the host value. -/
theorem readsExactly_json (x : HostValue) (hmade : ∀ y ∈ x.values, y.WellMade)
    (h : ∀ y ∈ x.values, y.ReadsExactly) : ∀ w ∈ x.json.values, w.ReadsExactly := by
  refine forall_json ?_ x ?_
  · intro w hfloat _
    cases w with
    | float z => exact absurd rfl (hfloat z)
    | null | bool _ | integer _ | string _ | array _ | object _ => trivial
  · intro y hy
    refine ⟨hmade y hy, ?_⟩
    rintro z rfl
    exact h _ hy

/-- **A root map is written** exactly if JSON can represent everything in it. -/
theorem encodeRoot_eq (layout : Json.Layout) (root : List (String × HostValue)) :
    encodeRoot layout root = ((map root).values.findSome? unrepresentable?).elim
      (.ok ((map root).json.text layout)) fun what => .error (.notRepresentable what) := by
  have hroot : (map root).values.findSome? unrepresentable? =
      (Members.values root).findSome? unrepresentable? := rfl
  rw [encodeRoot, Members.toJson_eq fun entry _ => entry.2.toJson_eq, encoded, hroot]
  cases (Members.values root).findSome? unrepresentable? <;> rfl

/-- **What is read from the text of a root map.** Only the depth can be at fault: a root that is not
too deep is read as some root, and as the same with its records as maps if all its doubles are read
back exactly. -/
theorem decodeRoot_text (layout : Json.Layout) {root : List (String × HostValue)}
    (h : ∀ x ∈ (map root).values, x.Plain) :
    ((map root).unrecorded.depth ≤ Json.maxDepth →
      (∃ read, decodeRoot ((map root).json.text layout) = .ok read) ∧
        ((∀ x ∈ (map root).values, x.ReadsExactly) →
          decodeRoot ((map root).json.text layout) = .ok (mapValues unrecorded root))) ∧
    (¬(map root).unrecorded.depth ≤ Json.maxDepth →
      decodeRoot ((map root).json.text layout) = .error .invalidJson) := by
  have hread := Json.ofText?_text layout (wellMade_json _ h)
  rw [← depth_ofJson, ofJson_json _ h] at hread
  refine ⟨fun hdepth => ⟨?_, ?_⟩, ?_⟩
  · obtain ⟨v, hv⟩ := hread.exists_iff.mpr hdepth
    rw [decodeRoot, hv]
    rw [json] at hv
    obtain ⟨members, rfl⟩ := Json.object_of_ofText?_text hv
    exact ⟨_, rfl⟩
  · intro hexact
    have hsame := hread.eq_some (readsExactly_json _ (fun x hx => (h x hx).1) hexact) hdepth
    rw [decodeRoot, hsame]
    dsimp only
    rw [ofJson_json _ h, unrecorded, Members.unrecorded_eq]
  · intro hdepth
    rw [decodeRoot, hread.eq_none hdepth]

/-- Both layouts of a root map are read as the same. -/
theorem decodeRoot_text_layout (x : HostValue) (layout layout' : Json.Layout) :
    decodeRoot (x.json.text layout) = decodeRoot (x.json.text layout') := by
  rw [decodeRoot, decodeRoot, Json.ofText?_text_layout _ layout layout']

/-- **The round trip of root maps through JSON text.** Writing a root map fails exactly if
something in it is a float that is not finite or a foreign value, and the error names the first
of these from the outside in. Otherwise there is a text in either layout, and from both the same is
read. If the map nests at most 127 deep, a map is read; and where the doubles in it are read back
exactly, that is the same map with every record in it as a map that holds its type name. -/
theorem decodeRoot_encodeRoot {root : List (String × HostValue)}
    (hmade : ∀ x ∈ (map root).values, x.WellMade) :
    (∀ layout, (∃ what, encodeRoot layout root = .error (.notRepresentable what)) ↔
      ∃ x ∈ (map root).values, ¬x.Representable) ∧
    (∀ layout e, encodeRoot layout root = .error e → ∃ what, e = .notRepresentable what ∧
      (map root).values.findSome? unrepresentable? = some what) ∧
    ((∀ x ∈ (map root).values, x.Representable) →
      ∃ compact pretty, encodeRoot .compact root = .ok compact ∧
        encodeRoot .pretty root = .ok pretty ∧ decodeRoot pretty = decodeRoot compact ∧
        ((map root).depth ≤ 127 → (∃ read, decodeRoot compact = .ok read) ∧
          ((∀ x ∈ (map root).values, x.ReadsExactly) →
            decodeRoot compact = .ok (mapValues unrecorded root)))) := by
  have hencode := fun layout => encodeRoot_eq layout root
  -- whether anything in the root cannot be represented decides everything
  cases hfirst : (map root).values.findSome? unrepresentable? with
  | some what =>
    rw [hfirst] at hencode
    obtain ⟨x, hx, hwhat⟩ := List.exists_of_findSome?_eq_some hfirst
    have hbad : ¬x.Representable := by
      rw [← unrepresentable?_eq_none_iff, hwhat]
      exact Option.some_ne_none what
    refine ⟨fun layout => iff_of_true ⟨what, hencode layout⟩ ⟨x, hx, hbad⟩, ?_, ?_⟩
    · intro layout e he
      rw [hencode layout] at he
      cases he
      exact ⟨what, rfl, rfl⟩
    · exact fun hall => absurd (hall x hx) hbad
  | none =>
    rw [hfirst] at hencode
    have hall : ∀ x ∈ (map root).values, x.Representable := fun x hx =>
      unrepresentable?_eq_none_iff.mp (List.findSome?_eq_none_iff.mp hfirst x hx)
    have hread := decodeRoot_text .compact fun x hx => ⟨hmade x hx, hall x hx⟩
    refine ⟨fun layout => iff_of_false ?_ ?_, ?_, fun _ => ?_⟩
    · rintro ⟨what, he⟩
      rw [hencode layout] at he
      cases he
    · rintro ⟨x, hx, hbad⟩
      exact hbad (hall x hx)
    · intro layout e he
      rw [hencode layout] at he
      cases he
    · refine ⟨_, _, hencode .compact, hencode .pretty, decodeRoot_text_layout _ _ _, ?_⟩
      intro hdepth
      have hshallow : (map root).unrecorded.depth ≤ Json.maxDepth :=
        (depth_unrecorded_le _).trans hdepth
      exact hread.1 hshallow

/-- A record with a field under the reserved key, in which a whole float and a zero with a minus
stay what they are; and, next to a float that is not finite, a foreign value under that key of
another record, which is met first. -/
theorem decodeRoot_encodeRoot_records :
    (∃ text, encodeRoot .pretty [("a", .list [.integer 3, .record "P" [("x", .float (.zero true)),
        ("__id__", .null), ("y", .float ⟨false, 1023 * 2 ^ 52, by decide⟩)]])] = .ok text ∧
      decodeRoot text = .ok [("a", .list [.integer 3, .map [("x", .float (.zero true)),
        ("__id__", .string "P"), ("y", .float ⟨false, 1023 * 2 ^ 52, by decide⟩)]])]) ∧
    encodeRoot .compact [("a", .record "P" [("__id__", .foreign "socket")]),
      ("b", .float (.infinity true))] = .error (.notRepresentable (.foreign "socket")) := by
  have hfirst := @decodeRoot_encodeRoot [("a", .list [.integer 3, .record "P"
    [("x", .float (.zero true)), ("__id__", .null),
      ("y", .float ⟨false, 1023 * 2 ^ 52, by decide⟩)]])]
    (by simp [values, Members.values, HostValues.values, WellMade, keys])
  have hsecond := @decodeRoot_encodeRoot [("a", .record "P" [("__id__", .foreign "socket")]),
    ("b", .float (.infinity true))] (by simp [values, Members.values, WellMade, keys])
  refine ⟨?_, ?_⟩
  · obtain ⟨compact, pretty, -, hpretty, hsame, hread⟩ := hfirst.2.2 (by
      simp [values, Members.values, HostValues.values, Representable]
      decide)
    have hexact : (Binary64.zero true).ReadsExactly ∧
        Binary64.ReadsExactly ⟨false, 1023 * 2 ^ 52, by decide⟩ := by
      decide +kernel
    refine ⟨pretty, hpretty, hsame.trans ((hread (by decide)).2 ?_)⟩
    simpa [values, Members.values, HostValues.values, ReadsExactly] using hexact
  · obtain ⟨what, hwhat⟩ := (hsecond.1 .compact).mpr ⟨.foreign "socket",
      by simp [values, Members.values], by simp [Representable]⟩
    obtain ⟨first, hfirst, hfound⟩ := hsecond.2.1 .compact _ hwhat
    cases hfound
    rw [hwhat, hfirst]

end HostValue

end DataLisp
