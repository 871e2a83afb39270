/-
What the export of a group as a map keeps, and what it loses.

A group has entries under keys, entries without keys, and an id; the map that it is exported to
has members under keys only. The entries without keys are put under their positions and the id
under a key of its own, and all of these keys are ones that an entry can have as well: a run of
digits is a key, and so is any word. Nothing keeps them apart. So an entry whose key is reserved
in this sense (`Group.reserved`) is lost, its place being taken, and exactly in groups without
such an entry every entry has a member of its own (`toHost_map_of_read`).
-/
import DataLisp.Proofs.Evaluation
import DataLisp.Proofs.Exchange

set_option autoImplicit false

namespace DataLisp

open OrderedMap

namespace Group

/-! ## Reserved keys -/

/-- The keys that export needs for what has none: the positions of the anonymous entries, and
the key of the id. -/
def reserved (g : Group) : List String :=
  (List.range g.anonymous.length).map (fun i : Nat => (Numeral.ofInt i).text) ++ [HostValue.idKey]

/-- What export puts under these keys. -/
def reservedMembers (g : Group) : List (String × HostValue) :=
  numbered 0 (g.anonymous.map (Value.toHost .map)) ++ [(HostValue.idKey, .string g.id)]

theorem keys_reservedMembers (g : Group) : keys g.reservedMembers = g.reserved := by
  have hpositions := keys_numbered 0 (g.anonymous.map (Value.toHost .map))
  rw [List.length_map, ← List.range_eq_range'] at hpositions
  rw [reserved, ← hpositions, reservedMembers, keys, List.map_append]
  rfl

/-- **The reserved keys are distinct**: no two positions are written alike, and none of them is
the key of the id. -/
theorem nodup_reserved (g : Group) : g.reserved.Nodup := by
  rw [reserved, List.nodup_append]
  refine ⟨List.Nodup.map (fun _ _ => Numeral.ofNat_of_text_eq) List.nodup_range,
    List.nodup_singleton _, ?_⟩
  intro key hkey other hother heq
  obtain ⟨i, -, rfl⟩ := List.mem_map.mp hkey
  rw [List.mem_singleton.mp hother] at heq
  exact idKey_ne_position i heq.symm

/-! ## Members -/

/-- The members of the map that a group is exported to: its named entries, and then what has no
key. -/
def members (g : Group) : List (String × HostValue) :=
  insertAll (mapValues (Value.toHost .map) g.named) g.reservedMembers

theorem toHost_map_eq {g : Group} (h : (keys g.named).Nodup) : g.toHost .map = .map g.members := by
  -- the positions and the id are inserted one after the other, as one row
  rw [toHost_eq .map h, HostValue.ofGroupFields, keyed, mapValues_insertAll, mapValues_numbered,
    members, reservedMembers, insertAll_append]
  rfl

/-- Named entries stay in their order, and what has no key follows under such reserved keys as
are not taken. -/
theorem keys_members (g : Group) :
    keys g.members = keys g.named ++ g.reserved.filter fun key => key ∉ keys g.named := by
  have hnodup := g.nodup_reserved
  rw [← keys_reservedMembers] at hnodup
  rw [members, keys_insertAll hnodup, keys_mapValues, keys_reservedMembers]

/-- What has no key is there under its reserved key, whatever the named entries. -/
theorem get?_members_of_reserved {g : Group} {e : String × HostValue}
    (h : e ∈ g.reservedMembers) : OrderedMap.get? g.members e.1 = some e.2 := by
  have hnodup := g.nodup_reserved
  rw [← keys_reservedMembers] at hnodup
  rw [members, get?_insertAll hnodup, get?_of_mem hnodup h, Option.some_or]

/-- A named entry is there unless its key is reserved. -/
theorem get?_members_of_named {g : Group} (hkeys : (keys g.named).Nodup) {entry : String × Value}
    (hentry : entry ∈ g.named) (hfree : entry.1 ∉ g.reserved) :
    OrderedMap.get? g.members entry.1 = some (entry.2.toHost .map) := by
  have hnodup := g.nodup_reserved
  rw [← keys_reservedMembers] at hnodup hfree
  have hkeys' : (keys (mapValues (Value.toHost .map) g.named)).Nodup := by rwa [keys_mapValues]
  have hmem : (entry.1, entry.2.toHost .map) ∈ mapValues (Value.toHost .map) g.named :=
    List.mem_map_of_mem (f := fun e : String × Value => (e.1, e.2.toHost .map)) hentry
  rw [members, get?_insertAll hnodup, get?_eq_none_iff.mpr hfree, Option.none_or]
  exact get?_of_mem hkeys' hmem

/-- **Every entry has a member of its own exactly if no key of an entry is reserved.** -/
theorem length_members_iff (g : Group) :
    g.members.length = g.named.length + g.anonymous.length + 1 ↔
      ∀ key ∈ g.reserved, key ∉ keys g.named := by
  -- a map has as many members as keys, and only free reserved keys are new
  have hlength : g.members.length =
      g.named.length + (g.reserved.filter fun key => key ∉ keys g.named).length := by
    have hkeys := congrArg List.length g.keys_members
    simpa [keys] using hkeys
  have hreserved : g.reserved.length = g.anonymous.length + 1 := by simp [reserved]
  rw [hlength, Nat.add_assoc, ← hreserved, Nat.add_left_cancel_iff,
    List.length_filter_eq_length_iff]
  simp

/-- Then the named entries come first, the anonymous ones under their positions after them, and
the id last. -/
theorem members_of_free {g : Group} (hkeys : (keys g.named).Nodup)
    (h : ∀ key ∈ g.reserved, key ∉ keys g.named) :
    g.members = mapValues (Value.toHost .map) g.named ++ g.reservedMembers := by
  refine insertAll_of_nodup ?_
  have hkeysAll : keys (mapValues (Value.toHost .map) g.named ++ g.reservedMembers) =
      keys g.named ++ g.reserved := by
    rw [← keys_reservedMembers, ← keys_mapValues (Value.toHost .map) g.named]
    exact List.map_append
  rw [hkeysAll, List.nodup_append]
  refine ⟨hkeys, g.nodup_reserved, ?_⟩
  rintro key hkey _ hreserved rfl
  exact h key hreserved hkey

/-- **What the export of a group keeps.** Of a group at any depth of a document that is read, the
exported map has the id under its key, every anonymous entry under its position, and every named
entry whose key is not reserved under that key; a named entry whose key is reserved is replaced
where it stands. So the map has as many members as the group has entries, and one for the id,
exactly if no key of an entry is reserved, and then it holds them all in their order. -/
theorem toHost_map_of_read {text : String} {doc : Document} (hread : Document.read text = .ok doc)
    {g : Group} (hg : Value.group g ∈ doc.values) :
    ∃ fields, g.toHost .map = .map fields ∧
      keys fields = keys g.named ++ g.reserved.filter (fun key => key ∉ keys g.named) ∧
      OrderedMap.get? fields HostValue.idKey = some (.string g.id) ∧
      (∀ (i : Nat) (v : Value), g.anonymous[i]? = some v →
        OrderedMap.get? fields (Numeral.ofInt i).text = some (v.toHost .map)) ∧
      (∀ entry ∈ g.named, entry.1 ∉ g.reserved →
        OrderedMap.get? fields entry.1 = some (entry.2.toHost .map)) ∧
      (fields.length = g.named.length + g.anonymous.length + 1 ↔
        ∀ key ∈ g.reserved, key ∉ keys g.named) ∧
      ((∀ key ∈ g.reserved, key ∉ keys g.named) →
        fields = mapValues (Value.toHost .map) g.named ++
          (numbered 0 (g.anonymous.map (Value.toHost .map)) ++
            [(HostValue.idKey, .string g.id)])) := by
  -- reading gives no group two entries of one key, which is all that is used of it
  have hfit := Document.fit_of_readWith keepsFit_standard hread
  have hmade : doc.WellMade := forall_values_document.mpr fun top htop => (hfit top htop).made
  have hkeys : (keys g.named).Nodup := (hmade _ hg).2
  refine ⟨g.members, toHost_map_eq hkeys, g.keys_members, ?_, ?_, ?_, g.length_members_iff,
    members_of_free hkeys⟩
  · exact get?_members_of_reserved (e := (HostValue.idKey, .string g.id))
      (List.mem_append_right _ List.mem_cons_self)
  · intro i v hv
    have hhost : (g.anonymous.map (Value.toHost .map))[i]? = some (v.toHost .map) := by
      rw [List.getElem?_map, hv, Option.map_some]
    have hmem := mem_numbered_of_getElem? hhost 0
    rw [Nat.zero_add] at hmem
    exact get?_members_of_reserved (List.mem_append_left _ hmem)
  · exact fun entry hentry hfree => get?_members_of_named hkeys hentry hfree

/-- A text with a group inside another one: the inner group has an anonymous entry and two named
ones, of which none has a reserved key, and it is exported with four members. -/
theorem toHost_map_of_read_inside :
    ∃ doc g fields, Document.read "(a\n  (b\n    true\n    :1 null\n    :k 2\n  )\n)\n" = .ok doc ∧
      Value.group g ∈ doc.values ∧ g.id = "b" ∧ g.toHost .map = .map fields ∧
      fields.length = 4 := by
  have hmade : Document.WellMade
      [⟨"a", [], [.group ⟨"b", [("1", .null), ("k", .integer 2)], [.bool true]⟩]⟩] := by
    simp [Document.WellMade, Document.values, Value.values, Group.values, Values.values,
      Named.values, Value.WellMade, keys]
  have hwrite : Document.write 2
      [⟨"a", [], [.group ⟨"b", [("1", .null), ("k", .integer 2)], [.bool true]⟩]⟩] =
        .ok "(a\n  (b\n    true\n    :1 null\n    :k 2\n  )\n)\n" := rfl
  have hread := (Document.readBack_shallow hmade hwrite (by decide) .standard).2.2
  have hmem : Value.group ⟨"b", [("1", .null), ("k", .integer 2)], [.bool true]⟩ ∈ Document.values
      [⟨"a", [], [.group ⟨"b", [("1", .null), ("k", .integer 2)], [.bool true]⟩]⟩] := by
    simp [Document.values, Value.values, Group.values, Values.values]
  obtain ⟨fields, hfields, -, -, -, -, hlength, -⟩ := toHost_map_of_read hread hmem
  exact ⟨_, _, fields, hread, hmem, rfl, hfields, hlength.mpr (by decide)⟩

/-- **A position may be taken.** In this document, which is read without an error, the named
entry `:0 1` is lost: the anonymous entry takes its place, and the map has two members for two
entries and the id. -/
theorem toHost_map_taken :
    Document.read "(a\n  2\n  :0 1\n)\n" = .ok [⟨"a", [("0", .integer 1)], [.integer 2]⟩] ∧
      (Group.mk "a" [("0", .integer 1)] [.integer 2]).toHost .map =
        .map [("0", .integer 2), ("__id__", .string "a")] ∧
      [("0", HostValue.integer 2), ("__id__", .string "a")].length ≠ 1 + 1 + 1 := by
  have hmade : Document.WellMade [⟨"a", [("0", .integer 1)], [.integer 2]⟩] := by
    simp [Document.WellMade, Document.values, Value.values, Group.values, Values.values,
      Named.values, Value.WellMade, keys]
  have hwrite : Document.write 2 [⟨"a", [("0", .integer 1)], [.integer 2]⟩] =
      .ok "(a\n  2\n  :0 1\n)\n" := rfl
  have hread := (Document.readBack_shallow hmade hwrite (by decide) .standard).2.2
  exact ⟨hread, rfl, by decide⟩

end Group

end DataLisp
