/-
Members that come again.

Two stores keep the members of a host map in order: the map itself, and the group that import makes
of it. Import gives the group what the map has kept, so a key that came again has been dealt with
before any value is converted. A group that is given all members one after the other deals with it
itself, and after the conversion. Both follow one rule, the place of the first and the value of the
last, and converting values and leaving out the reserved key go along with that rule
(`ofList_entries`). So the groups are the same, the index of their keys included
(`IndexedGroup.eq_of_view`).

The id of the group of a map is what the last of its reserved members spells, if it spells one
(`Group.ofMembers_ofList`). No member of that key becomes an entry, at any depth.
-/
import DataLisp.Proofs.Exchange
import DataLisp.Proofs.IndexedGroups

set_option autoImplicit false

namespace DataLisp

open OrderedMap

/-! ## Groups that show the same -/

namespace IndexedGroup

/-- Entries without keys are determined by their values. -/
theorem map_none_snd {α : Type} {es : List (Entry α)} (h : ∀ e ∈ es, e.1 = none) :
    (es.map Prod.snd).map (fun v => (none, v)) = es := by
  rw [List.map_map]
  refine (List.map_congr_left ?_).trans (List.map_id es)
  intro e he
  exact Prod.ext (h e he).symm rfl

/-- **Valid groups that show the same are the same**, since the keys determine the index. -/
theorem eq_of_view {g h : IndexedGroup Value} (hg : g.Valid) (hh : h.Valid)
    (hview : g.view = h.view) : g = h := by
  have hid : g.id = h.id := congrArg Group.id hview
  have hnamed : g.named = h.named := by
    rw [← map_ofPair_pairs hg.named_keyed, ← map_ofPair_pairs hh.named_keyed]
    exact congrArg (fun shown : Group => shown.named.map ofPair) hview
  have hanonymous : g.anonymous = h.anonymous := by
    rw [← map_none_snd hg.anonymous_free, ← map_none_snd hh.anonymous_free]
    exact congrArg (fun shown : Group => shown.anonymous.map fun v => (none, v)) hview
  have hindex : g.index = h.index := index_eq hg hh (congrArg (List.map Prod.fst) hnamed)
  obtain ⟨id, named, index, anonymous⟩ := g
  obtain rfl : id = h.id := hid
  obtain rfl : named = h.named := hnamed
  obtain rfl : index = h.index := hindex
  obtain rfl : anonymous = h.anonymous := hanonymous
  rfl

/-! ## Adding members -/

/-- The additions of members in their order: the value of each, under its key. The reserved member
is left out. -/
def additions (members : List (String × HostValue)) : List (Op Value) :=
  (members.filter fun member => member.1 ≠ HostValue.idKey).map fun member =>
    .add (some member.1, member.2.toValue.value)

/-- The group of a type name to which members have been added. -/
def ofMembers (typeName : String) (members : List (String × HostValue)) : IndexedGroup Value :=
  run (ofId typeName) (additions members)

theorem valid_ofMembers (typeName : String) (members : List (String × HostValue)) :
    (ofMembers typeName members).Valid :=
  valid_run (valid_ofId typeName) _

/-- These are the additions of the entries that import makes of the members. -/
theorem additions_eq (members : List (String × HostValue)) :
    additions members =
      ((Members.toEntries members).value.map fun d => (d.key, d.value)).map Op.add := by
  rw [Members.toEntries_value, additions, mapValues, List.map_map, List.map_map, List.map_map]
  rfl

theorem view_ofMembers (typeName : String) (members : List (String × HostValue)) :
    (ofMembers typeName members).view =
      (Group.ofId typeName).addAll (Members.toEntries members).value := by
  rw [ofMembers, additions_eq, view_adds]

end IndexedGroup

/-! ## Before and after the conversion -/

/-- **Members can be deduplicated before or after** they become entries. -/
theorem OrderedMap.ofList_entries (members : List (String × HostValue)) :
    ofList (mapValues (fun x : HostValue => x.toValue.value)
        ((ofList members).filter fun member => member.1 ≠ HostValue.idKey)) =
      ofList (mapValues (fun x => x.toValue.value)
        (members.filter fun member => member.1 ≠ HostValue.idKey)) := by
  rw [filter_ofList (fun key => key ≠ HostValue.idKey), mapValues_ofList]
  exact insertAll_ofList [] _

/-- So a group is given the same entries by the members and by the map that has kept the last of
them. -/
theorem Group.addAll_ofList (id : String) (members : List (String × HostValue)) :
    (Group.mk id [] []).addAll (Members.toEntries (ofList members)).value =
      (Group.mk id [] []).addAll (Members.toEntries members).value := by
  rw [Group.addAll_toEntries, Group.addAll_toEntries, ofList_entries]

/-! ## The id of a map -/

/-- The id that a group has if its map has this value for the reserved member. A text that is not
empty, a number or a boolean spells an id. -/
def HostValue.groupId : Option HostValue → String
  | some (.string s) => if s = "" then Group.unknownId else s
  | some (.integer i) => (Numeral.ofInt64 i).text
  | some (.float x) => Notation.message.text x
  | some (.bool b) => if b then "true" else "false"
  | _ => Group.unknownId

/-- No double is written as the empty text. -/
theorem Notation.text_ne_empty (f : Notation) (x : Binary64) : f.text x ≠ "" := by
  unfold text
  split
  · decide
  split
  · rename_i hx
    -- there are digits before the point, as in every JSON number
    obtain ⟨-, hwhole, -⟩ := Json.isNumber_iff.mp (Json.isNumber_numeral f hx)
    exact Numeral.text_ne_empty hwhole
  split <;> decide

/-- What spells an id is the id, unless it is empty. -/
theorem Group.ofMembers_groupId (members : List (String × HostValue)) :
    Group.ofMembers members =
      ⟨HostValue.groupId (OrderedMap.get? members HostValue.idKey), [], []⟩ := by
  have hid : ∀ {id : String}, id ≠ "" → Group.ofId id = ⟨id, [], []⟩ := by
    intro id hne
    rw [Group.ofId, Group.resolveId_of_ne hne]
  have hunknown : Group.unknown = ⟨Group.unknownId, [], []⟩ := rfl
  rw [Group.ofMembers]
  cases OrderedMap.get? members HostValue.idKey with
  | none => exact hunknown
  | some x =>
    cases x with
    | string s =>
      by_cases hs : s = ""
      · subst hs
        rfl
      · rw [HostValue.groupId, if_neg hs]
        exact hid hs
    | integer i =>
      have hwhole : (Numeral.ofInt64 i).whole ≠ [] := Nat.toDigits_ne_nil
      exact hid (Numeral.text_ne_empty hwhole)
    | float x => exact hid (Notation.message.text_ne_empty x)
    | bool b =>
      cases b
      · exact hid (by decide)
      · exact hid (by decide)
    | null | list _ | map _ | record _ _ | foreign _ => exact hunknown

/-- Of several reserved members the map has kept the last. -/
theorem Group.ofMembers_ofList (members : List (String × HostValue)) :
    Group.ofMembers (ofList members) =
      ⟨HostValue.groupId (members.reverse.lookup HostValue.idKey), [], []⟩ := by
  rw [Group.ofMembers_groupId, get?_ofList]

/-! ## The groups that import makes -/

/-- **The last of a key wins, whichever store sees to it.** Let members be given, with any
repetitions. Adding them to a new group one after the other, or adding what a map has kept of them,
makes the same group, the index included. It is the group that import makes of the record of these
members. Import makes a group of the same entries of their map, with the id that the last reserved
member spells. And no group that import makes of anything has an entry under the reserved key, at
any depth. -/
theorem Group.members_last_wins (typeName : String) (members : List (String × HostValue)) :
    (∃ g : Group, (IndexedGroup.ofMembers typeName members).Represents g ∧
      IndexedGroup.ofMembers typeName (ofList members) =
        IndexedGroup.ofMembers typeName members ∧
      (HostValue.ofFields typeName members).toValue.value = .group g ∧
      (∀ name, ((HostValue.ofFields typeName members).toGroup name).value = g) ∧
      (HostValue.map (ofList members)).toValue.value =
        .group { g with id := HostValue.groupId (members.reverse.lookup HostValue.idKey) } ∧
      ∀ name, ((HostValue.map (ofList members)).toGroup name).value =
        { g with id := HostValue.groupId (members.reverse.lookup HostValue.idKey) }) ∧
    (∀ (x : HostValue), ∀ w ∈ x.toValue.value.values, w.Unreserved) ∧
    ∀ root, ∀ w ∈ (Document.ofHost root).value.values, w.Unreserved := by
  refine ⟨⟨(IndexedGroup.ofMembers typeName members).view, ?_⟩,
    fun x w hw => (x.wellMade_toValue w hw).2,
    fun root w hw => (Document.wellMade_ofHost root w hw).2⟩
  have hview := IndexedGroup.view_ofMembers typeName members
  have hsame : IndexedGroup.ofMembers typeName (ofList members) =
      IndexedGroup.ofMembers typeName members := by
    refine IndexedGroup.eq_of_view (IndexedGroup.valid_ofMembers _ _)
      (IndexedGroup.valid_ofMembers _ _) ?_
    rw [IndexedGroup.view_ofMembers, hview]
    exact Group.addAll_ofList _ members
  have hrecord : (HostValue.ofFields typeName members).toValue.value =
      .group (IndexedGroup.ofMembers typeName members).view := by
    rw [hview]
    exact congrArg Value.group (Group.addAll_ofList _ members)
  have hmap : (HostValue.map (ofList members)).toValue.value =
      .group { (IndexedGroup.ofMembers typeName members).view with
        id := HostValue.groupId (members.reverse.lookup HostValue.idKey) } := by
    have hvalue : (HostValue.map (ofList members)).toValue.value =
        .group ((Group.ofMembers (ofList members)).addAll
          (Members.toEntries (ofList members)).value) := rfl
    rw [hvalue, Group.ofMembers_ofList, Group.addAll_ofList, hview]
    -- the entries do not depend on the id
    rw [Group.ofId, Group.addAll_toEntries, Group.addAll_toEntries]
  exact ⟨(IndexedGroup.valid_ofMembers _ _).represents_view, hsame, hrecord,
    HostValue.toGroup_value hrecord, hmap, HostValue.toGroup_value hmap⟩

/-- A field that comes again has its last value at its first place, and reserved fields are none. -/
example : (HostValue.ofFields "T" [("1", .string "first"), (HostValue.idKey, .string "U"),
      ("other", .null), ("1", .string "second")]).toValue.value =
    .group ⟨"T", [("1", .string "second"), ("other", .null)], []⟩ := rfl

end DataLisp
