/-
JSON text that is written and read again.

The names and the numbers of what a document is written as are never refused when it is read; only
how deep it nests can be against it. Reading stops at 127 levels, and nothing stops writing: a
document text may nest twice as deep, and an import may already be one level deeper than the text
that it came from, where a list on top was wrapped in a group. So whether a document can be imported
again hangs on the depth of what it is exported to, and on that alone
(`Document.ofJsonText_of_toJsonText`).

That depth is the depth of the document and two levels for the root and the top groups, or less
where an entry is lost (`Value.depth_toHost_le`, `Document.depth_toHost_le_iff`).
-/
import DataLisp.Proofs.Conversion
import DataLisp.Proofs.Export

set_option autoImplicit false
set_option maxRecDepth 4096

namespace DataLisp

open OrderedMap

/-! ## How deep an export is -/

/-- **Export makes nothing deeper**, in either shape. -/
theorem Value.depth_toHost_le (shape : GroupShape) (v : Value) :
    (v.toHost shape).depth ≤ v.depth := by
  induction v using Value.induction with
  | null | string _ | integer _ | float _ | bool _ => exact Nat.le_refl 0
  | group g ihanonymous ihnamed =>
    obtain ⟨hanonymous, hnamed⟩ := Group.depth_le.mp (Nat.le_refl g.depth)
    have hfields : ∀ entry ∈ mapValues (Value.toHost shape) g.fields, entry.2.depth ≤ g.depth :=
      List.forall_mem_map.mpr (Group.forall_fields
        (fun v hv => (ihanonymous v hv).trans (hanonymous v hv))
        fun e he => (ihnamed e he).trans (hnamed e he))
    rw [toHost, Group.toHost_fields, depth]
    cases shape with
    | record =>
      rw [HostValue.ofGroupFields, HostValue.depth]
      exact Nat.succ_le_succ (Members.depth_le.mpr hfields)
    | map =>
      rw [HostValue.ofGroupFields, HostValue.depth]
      refine Nat.succ_le_succ (Members.depth_le.mpr ?_)
      intro entry hentry
      -- the id, which has no depth, is all that is added
      rcases mem_insert hentry with hentry | rfl
      · exact hfields entry hentry
      · exact Nat.zero_le _
  | array items ih =>
    rw [toHost, Items.toHost_eq, HostValue.depth, depth]
    refine Nat.succ_le_succ (HostValues.depth_le.mpr (List.forall_mem_map.mpr ?_))
    exact fun d hd => (ih d hd).trans (Items.depth_le.mp le_rfl d hd)

/-- Whether a single value loses no entry of its own in export: all entries of a group have
different keys, and none has a reserved one. -/
def Value.KeepsEntries : Value → Prop
  | .group g => (keys g.named).Nodup ∧ ∀ key ∈ g.reserved, key ∉ keys g.named
  | .array _ | .null | .string _ | .integer _ | .float _ | .bool _ => True

/-- **Where no entry is lost, none of the depth is.** -/
theorem Value.le_depth_toHost (v : Value) (h : ∀ w ∈ v.values, w.KeepsEntries) :
    v.depth ≤ (v.toHost .map).depth := by
  induction v using Value.induction with
  | null | string _ | integer _ | float _ | bool _ => exact Nat.zero_le _
  | group g ihanonymous ihnamed =>
    obtain ⟨⟨hkeys, hfree⟩, hinside⟩ := forall_values_group.mp h
    obtain ⟨hanonymous, hnamed⟩ := forall_values_inside.mp hinside
    rw [toHost, Group.toHost_map_eq hkeys, HostValue.depth, depth]
    have hdeep : ∀ member ∈ mapValues (Value.toHost .map) g.named ++ g.reservedMembers,
        member.2.depth ≤ Members.depth g.members := by
      rw [← Group.members_of_free hkeys hfree]
      exact Members.depth_le.mp le_rfl
    rw [List.forall_mem_append] at hdeep
    refine Nat.succ_le_succ (Group.depth_le.mpr ⟨?_, ?_⟩)
    · intro v hv
      obtain ⟨i, hi⟩ := List.mem_iff_getElem?.mp hv
      have hhost : (g.anonymous.map (Value.toHost .map))[i]? = some (v.toHost .map) := by
        rw [List.getElem?_map, hi, Option.map_some]
      have hmem := List.mem_append_left [(HostValue.idKey, HostValue.string g.id)]
        (mem_numbered_of_getElem? hhost 0)
      exact (ihanonymous v hv (hanonymous v hv)).trans (hdeep.2 _ hmem)
    · intro entry hentry
      have hmem : (entry.1, entry.2.toHost .map) ∈ mapValues (Value.toHost .map) g.named :=
        List.mem_map_of_mem (f := fun e : String × Value => (e.1, e.2.toHost .map)) hentry
      exact (ihnamed entry hentry (hnamed entry hentry)).trans (hdeep.1 _ hmem)
  | array items ih =>
    obtain ⟨-, hitems⟩ := forall_values_array.mp h
    rw [toHost, Items.toHost_eq, HostValue.depth, depth]
    refine Nat.succ_le_succ (Items.depth_le.mpr ?_)
    intro d hd
    exact (ih d hd (hitems d hd)).trans
      (HostValues.depth_le.mp le_rfl _ (List.mem_map_of_mem hd))

namespace Document

variable {doc : Document}

/-- The root map is a level of its own, above the top groups. -/
theorem depth_toHost_le {n : Nat} (h : ∀ g ∈ doc, g.depth ≤ n) :
    (HostValue.map (doc.toHost .map).value).depth ≤ n + 2 := by
  rw [HostValue.depth, toHost_value]
  refine Nat.succ_le_succ (Members.depth_le.mpr (List.forall_mem_map.mpr ?_))
  intro entry hentry
  exact ((Value.group entry.2).depth_toHost_le .map).trans
    (Nat.succ_le_succ (h _ (mem_latest hentry).1))

/-- **A document is exported as deep as it is**, if no top group and no entry is lost. -/
theorem depth_toHost_le_iff (hids : (doc.map Group.id).Nodup)
    (hkept : ∀ w ∈ doc.values, w.KeepsEntries) {n : Nat} :
    (HostValue.map (doc.toHost .map).value).depth ≤ n + 2 ↔ ∀ g ∈ doc, g.depth ≤ n := by
  refine ⟨?_, depth_toHost_le⟩
  intro h g hg
  rw [HostValue.depth, Nat.succ_le_succ_iff, toHost_value, latest_of_nodup hids] at h
  have hmem : (g.id, g.toHost .map) ∈
      mapValues (Group.toHost .map) (doc.map fun g => (g.id, g)) :=
    List.mem_map_of_mem (List.mem_map_of_mem hg)
  have htop := (Value.group g).le_depth_toHost (forall_values_document.mp hkept g hg)
  exact Nat.succ_le_succ_iff.mp (htop.trans (Members.depth_le.mp h _ hmem))

end Document

/-! ## What is read back -/

/-- Lists inside each other, the innermost one empty. -/
def HostValue.nested : Nat → HostValue
  | 0 => .list []
  | n + 1 => .list [nested n]

theorem HostValue.forall_values_nested {P : HostValue → Prop} (hP : ∀ items, P (.list items))
    (n : Nat) : ∀ y ∈ (nested n).values, P y := by
  induction n with
  | zero => exact List.forall_mem_singleton.mpr (hP [])
  | succ n ih =>
    rw [nested, values, List.forall_mem_cons, HostValues.forall_values]
    exact ⟨hP _, List.forall_mem_singleton.mpr ih⟩

/-- Where there are no records, none has to be read back as a map. -/
theorem HostValue.unrecorded_eq_self (x : HostValue)
    (h : ∀ y ∈ x.values, ∀ typeName fields, y ≠ record typeName fields) : x.unrecorded = x := by
  induction x using HostValue.induction with
  | null | bool _ | integer _ | float _ | string _ | foreign _ => rfl
  | list items ih =>
    rw [values, List.forall_mem_cons, HostValues.forall_values] at h
    rw [unrecorded, HostValues.unrecorded_eq, List.map_congr_left fun x hx => ih x hx (h.2 x hx),
      List.map_id']
  | map members ih =>
    rw [values, List.forall_mem_cons, Members.forall_values] at h
    rw [unrecorded, Members.unrecorded_eq,
      mapValues_eq_self fun entry hentry => ih entry hentry (h.2 entry hentry)]
  | record typeName fields => exact absurd rfl (h _ List.mem_cons_self typeName fields)

namespace Document

/-- The keys of what is exported are distinct at every depth, as those of any host data. -/
theorem wellMade_toHost (shape : GroupShape) (doc : Document) :
    ∀ y ∈ (HostValue.map (doc.toHost shape).value).values, y.WellMade := by
  have hroot : (keys (doc.toHost shape).value).Nodup := by
    rw [toHost_value, keys_mapValues]
    exact nodup_keys_ofList _
  refine forall_toHost ?_ doc hroot fun _ _ => trivial
  intro y hshape
  cases y with
  | map members => exact hshape.2
  | record typeName fields => exact hshape.2
  | null | bool _ | integer _ | float _ | string _ | list _ | foreign _ => trivial

theorem unrecorded_toHost (doc : Document) :
    (HostValue.map (doc.toHost .map).value).unrecorded = .map (doc.toHost .map).value := by
  refine HostValue.unrecorded_eq_self _ (forall_toHost ?_ doc (by simp) (by simp))
  rintro _ hshape typeName fields rfl
  exact absurd hshape.1 (by decide)

variable {doc : Document} {layout : Json.Layout} {json : String}

/-- **The text of a document is read as some root map**, unless what the document was exported to is
too deep. -/
theorem decodeRoot_of_toJsonText (h : (doc.toJsonText layout).value = .ok json) :
    ((HostValue.map (doc.toHost .map).value).depth ≤ Json.maxDepth →
      ∃ root, HostValue.decodeRoot json = .ok root) ∧
    (¬(HostValue.map (doc.toHost .map).value).depth ≤ Json.maxDepth →
      HostValue.decodeRoot json = .error .invalidJson) := by
  have hencode : HostValue.encodeRoot layout (doc.toHost .map).value = .ok json := h
  rw [HostValue.encodeRoot_eq] at hencode
  cases hfirst : (HostValue.map (doc.toHost .map).value).values.findSome?
      HostValue.unrepresentable? with
  | some what =>
    rw [hfirst] at hencode
    cases hencode
  | none =>
    rw [hfirst] at hencode
    cases hencode
    have hplain : ∀ y ∈ (HostValue.map (doc.toHost .map).value).values, y.Plain := fun y hy =>
      ⟨wellMade_toHost .map doc y hy,
        HostValue.unrepresentable?_eq_none_iff.mp (List.findSome?_eq_none_iff.mp hfirst y hy)⟩
    obtain ⟨hread, hrefused⟩ := HostValue.decodeRoot_text layout hplain
    rw [unrecorded_toHost] at hread hrefused
    exact ⟨fun hdepth => (hread hdepth).1, hrefused⟩

/-- So it is imported exactly if that is not too deep. -/
theorem ofJsonText_ok_iff (h : (doc.toJsonText layout).value = .ok json) :
    (∃ again, (ofJsonText json).value = .ok again) ↔
      (HostValue.map (doc.toHost .map).value).depth ≤ 127 := by
  obtain ⟨hread, hrefused⟩ := decodeRoot_of_toJsonText h
  constructor
  · rintro ⟨again, hagain⟩
    by_contra hdepth
    rw [ofJsonText, hrefused hdepth] at hagain
    cases hagain
  · intro hdepth
    obtain ⟨root, hroot⟩ := hread hdepth
    rw [ofJsonText, hroot]
    exact ⟨_, rfl⟩

/-- And the error is always the same. -/
theorem ofJsonText_eq_error (h : (doc.toJsonText layout).value = .ok json)
    (hdepth : 127 < (HostValue.map (doc.toHost .map).value).depth) :
    (ofJsonText json).value = .error .invalidJson := by
  rw [ofJsonText, (decodeRoot_of_toJsonText h).2 (Nat.not_le.mpr hdepth)]
  rfl

/-- What is imported lies as deep in its top group as in the root, or one level less deep where it
was a map: only what is no map is wrapped in a group. -/
theorem depth_ofHost_of_maps {root : List (String × HostValue)} {n : Nat}
    (hdepth : Members.depth root ≤ n + 1)
    (h : ∀ entry ∈ root, (∃ members, entry.2 = .map members) ∨ entry.2.depth ≤ n) :
    ∀ g ∈ (ofHost root).value, g.depth ≤ n := by
  rw [ofHost_value, List.forall_mem_map]
  rintro ⟨name, payload⟩ hentry
  rw [Group.depth_setId]
  have hvalue := payload.depth_toValue_le
  rcases h _ hentry with ⟨members, rfl⟩ | hshallow
  · have hgroup : (HostValue.map members).toValue.value =
        .group ((HostValue.map members).toGroup name).value := rfl
    rw [hgroup, Value.depth] at hvalue
    exact Nat.succ_le_succ_iff.mp (hvalue.trans (Members.depth_le.mp hdepth _ hentry))
  · exact (payload.depth_toGroup_le name).trans hshallow

/-- **What is written as JSON is imported again exactly if it nests at most 127 deep**, counting
the root: the text of any document, in either layout, can be imported if the root map that the
document was exported to nests no deeper, and else import fails, the text being no JSON that it
reads. So a document is imported again if nothing in it nests more than 125 deep in its top group,
and only then if no top group and no entry is lost in export. What was imported in the first place
goes beyond the limit by one level at most, and not at all if the members of its root that nest 126
deep are maps. -/
theorem ofJsonText_of_toJsonText (h : (doc.toJsonText layout).value = .ok json) :
    (((HostValue.map (doc.toHost .map).value).depth ≤ 127 →
          ∃ again, (ofJsonText json).value = .ok again) ∧
        (127 < (HostValue.map (doc.toHost .map).value).depth →
          (ofJsonText json).value = .error .invalidJson)) ∧
      ((∀ g ∈ doc, g.depth ≤ 125) → ∃ again, (ofJsonText json).value = .ok again) ∧
      ((doc.map Group.id).Nodup → (∀ w ∈ doc.values, w.KeepsEntries) →
        ((∃ again, (ofJsonText json).value = .ok again) ↔ ∀ g ∈ doc, g.depth ≤ 125)) ∧
      ∀ text root, HostValue.decodeRoot text = .ok root → (ofHost root).value = doc →
        (HostValue.map (doc.toHost .map).value).depth ≤ 128 ∧
          ((∀ entry ∈ root, (∃ members, entry.2 = .map members) ∨ entry.2.depth ≤ 125) →
            ∃ again, (ofJsonText json).value = .ok again) := by
  have haccepted := ofJsonText_ok_iff h
  refine ⟨⟨haccepted.mpr, ofJsonText_eq_error h⟩,
    fun hdepth => haccepted.mpr (depth_toHost_le hdepth), ?_, ?_⟩
  · intro hids hkept
    rw [haccepted, ← depth_toHost_le_iff hids hkept]
  · rintro text root hroot rfl
    obtain ⟨-, hdepth⟩ := HostValue.decodeRoot_eq_ok hroot
    have hless : Members.depth root ≤ 126 := Nat.le_of_lt_succ hdepth
    refine ⟨depth_toHost_le fun g hg => (depth_ofHost g hg).trans hless, ?_⟩
    intro hmaps
    exact haccepted.mpr (depth_toHost_le (depth_ofHost_of_maps hless hmaps))

/-- A document at the limit, which is imported again. -/
theorem ofJsonText_of_toJsonText_limit :
    (toJsonText .compact [⟨"a", [("k", .null)], [(HostValue.nested 124).toValue.value]⟩]).value =
      .ok (String.ofList ("\x7b\"a\":\x7b\"k\":null,\"0\":".toList ++ List.replicate 125 '[' ++
        List.replicate 125 ']' ++ ",\"__id__\":\"a\"\x7d\x7d".toList)) ∧
    ∃ again, (ofJsonText (String.ofList ("\x7b\"a\":\x7b\"k\":null,\"0\":".toList ++
        List.replicate 125 '[' ++ List.replicate 125 ']' ++
        ",\"__id__\":\"a\"\x7d\x7d".toList))).value = .ok again := by
  have hjson : (toJsonText .compact
      [⟨"a", [("k", .null)], [(HostValue.nested 124).toValue.value]⟩]).value =
        .ok (String.ofList ("\x7b\"a\":\x7b\"k\":null,\"0\":".toList ++ List.replicate 125 '[' ++
          List.replicate 125 ']' ++ ",\"__id__\":\"a\"\x7d\x7d".toList)) := rfl
  exact ⟨hjson, (ofJsonText_of_toJsonText hjson).1.1 (by decide)⟩

/-- **One level too many.** The arrays of this document nest 126 deep, and it is both read from a
text and imported from a JSON text; but exported it nests 128 deep, and cannot be imported again. -/
theorem ofJsonText_of_toJsonText_nested : ∃ doc json,
    read (String.ofList ("(a\n  ".toList ++ List.replicate 126 '[' ++ List.replicate 126 ']' ++
      "\n)\n".toList)) = .ok doc ∧
    (ofJsonText (String.ofList ("\x7b\"a\":".toList ++ List.replicate 126 '[' ++
      List.replicate 126 ']' ++ "\x7d".toList))).value = .ok doc ∧
    (doc.toJsonText .compact).value = .ok json ∧ (ofJsonText json).value = .error .invalidJson := by
  have hplain : ∀ y ∈ (HostValue.map [("a", .nested 125)]).values, y.Plain := by
    rw [HostValue.values, List.forall_mem_cons, Members.forall_values, List.forall_mem_singleton]
    refine ⟨⟨?_, trivial⟩, HostValue.forall_values_nested (fun _ => ⟨trivial, trivial⟩) 125⟩
    simp [HostValue.WellMade, keys]
  have hwrite : (ofHost [("a", .nested 125)]).value.write 2 = .ok (String.ofList
      ("(a\n  ".toList ++ List.replicate 126 '[' ++ List.replicate 126 ']' ++ "\n)\n".toList)) :=
    rfl
  have hjsonText : (HostValue.map [("a", .nested 125)]).json.text .compact = String.ofList
      ("\x7b\"a\":".toList ++ List.replicate 126 '[' ++ List.replicate 126 ']' ++ "\x7d".toList) :=
    rfl
  have hfinite := finite_ofHost fun y hy => (hplain y (List.mem_cons_of_mem _ hy)).2
  obtain ⟨json, hjson⟩ := exists_toJsonText hfinite .compact
  refine ⟨(ofHost [("a", .nested 125)]).value, json, ?_, ?_, hjson, ?_⟩
  · have hmade : (ofHost [("a", .nested 125)]).value.WellMade := fun w hw =>
      (wellMade_ofHost _ w hw).1
    rw [read]
    exact (readBack_shallow hmade hwrite (by decide) .standard).2.2
  · have hexact : ∀ y ∈ (HostValue.map [("a", .nested 125)]).values, y.ReadsExactly := by
      rw [HostValue.values, List.forall_mem_cons, Members.forall_values, List.forall_mem_singleton]
      exact ⟨trivial, HostValue.forall_values_nested (fun _ => trivial) 125⟩
    rw [ofJsonText, ← hjsonText,
      ((HostValue.decodeRoot_text .compact hplain).1 (by decide)).2 hexact]
    rfl
  · exact ofJsonText_eq_error hjson (by decide)

end Document

end DataLisp
