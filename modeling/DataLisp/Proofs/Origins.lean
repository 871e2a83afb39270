/-
Where documents come from.

The parts of a document are made by the operations of the model, come out of a document that is
read, imported or loaded, or are taken from and put into other parts (`Obtained`). Reading brings
in handlers: what a handler gives is obtained in the same ways, from the arguments of its call. So
the relation has the parts that are given as an index, and it refers to itself for every handler
of a registry; one induction settles all of it.

Whatever is obtained is coherent (`Obtained.coherent`): groups have an id and distinct keys. That
is less than being well made, because the items of a loaded array may have keys; but it is all
that loading relies on, so a snapshot of any document gives that document or none
(`Document.loads_obtained`).
-/
import DataLisp.Proofs.Composition
import DataLisp.Proofs.SnapshotLoading
import DataLisp.Proofs.Snapshots

set_option autoImplicit false

namespace DataLisp

/-! ## What there is -/

/-- **All ways to come by a part of a document**, given some items. -/
inductive Obtained : List Item → Part → Prop where
  /-- By the operations alone. -/
  | made {ds : List Item} {part : Part} (h : Made part) : Obtained ds part
  | given {ds : List Item} {d : Item} (hd : d ∈ ds) : Obtained ds (.value d.value)
  /-- By reading a text, with handlers that make of their arguments what can be obtained. -/
  | read {ds : List Item} {registry : Registry} {text : String} {doc : Document} {g : Group}
      (hregistry : ∀ entry ∈ registry, ∀ call : Call,
        Obtained call.args (.value (entry.2 call).value.value))
      (hdoc : (Document.readWith registry text).value = .ok doc) (hg : g ∈ doc) :
      Obtained ds (.group g)
  | imported {ds : List Item} {root : List (String × HostValue)} {g : Group}
      (hg : g ∈ (Document.ofHost root).value) : Obtained ds (.group g)
  | loaded {ds : List Item} {text : String} {doc : Document} {g : Group}
      (hdoc : Document.ofSnapshot? text = some doc) (hg : g ∈ doc) : Obtained ds (.group g)
  /-- A value can be loaded by itself, whatever the number of levels. -/
  | loadedValue {ds : List Item} {levels : Nat} {node : Json.Node} {v : Value}
      (hv : Snapshot.value? levels node = some v) : Obtained ds (.value v)
  -- taking apart
  | groupOf {ds : List Item} {g : Group} (h : Obtained ds (.value (.group g))) :
      Obtained ds (.group g)
  | entryOf {ds : List Item} {g : Group} {d : Item} (h : Obtained ds (.group g))
      (hd : d ∈ g.entries) : Obtained ds (.value d.value)
  | itemsOf {ds : List Item} {items : List Item} (h : Obtained ds (.value (.array items))) :
      Obtained ds (.items items)
  | itemOf {ds : List Item} {items : List Item} {d : Item} (h : Obtained ds (.items items))
      (hd : d ∈ items) : Obtained ds (.value d.value)
  -- putting together
  | group {ds : List Item} {g : Group} (hg : Obtained ds (.group g)) :
      Obtained ds (.value (.group g))
  | array {ds : List Item} {items : List Item} (h : Obtained ds (.items items)) :
      Obtained ds (.value (.array items))
  | setId {ds : List Item} {g : Group} (hg : Obtained ds (.group g)) (id : String) :
      Obtained ds (.group (g.setId id))
  | add {ds : List Item} {g : Group} {d : Item} (hg : Obtained ds (.group g))
      (hd : Obtained ds (.value d.value)) : Obtained ds (.group (g.add d))
  | pushItem {ds : List Item} {items : List Item} {d : Item} (h : Obtained ds (.items items))
      (hd : Obtained ds (.value d.value)) : Obtained ds (.items (Items.push items d))
  | setItem {ds : List Item} {items : List Item} {d : Item} (h : Obtained ds (.items items))
      (index : Nat) (hd : Obtained ds (.value d.value)) :
      Obtained ds (.items (Items.set items index d))
  | collect {ds : List Item} {items : List Item}
      (h : ∀ d ∈ items, Obtained ds (.value d.value)) : Obtained ds (.items (Items.collect items))

/-- A document whose groups come from anywhere. -/
def Document.Obtained (doc : Document) : Prop :=
  ∀ g ∈ doc, DataLisp.Obtained [] (.group g)

/-! ## The standard handlers -/

section Handlers

variable {ds : List Item}

theorem obtained_null : Obtained ds (.value .null) :=
  .made .null

theorem obtained_addAll {g : Group} {items : List Item} (hg : Obtained ds (.group g))
    (hitems : ∀ d ∈ items, Obtained ds (.value d.value)) :
    Obtained ds (.group (g.addAll items)) := by
  induction items generalizing g with
  | nil => exact hg
  | cons d rest ih =>
    rw [List.forall_mem_cons] at hitems
    exact ih (hg.add hitems.1) hitems.2

/-- What a standard handler puts together is obtained by the operations. -/
theorem Composed.obtained {v : Value} (h : Composed ds v) : Obtained ds (.value v) := by
  induction h with
  | null => exact obtained_null
  | bool b => exact .made (.bool b)
  | given hd => exact .given hd
  | entryOf _ hd ih => exact .entryOf (.groupOf ih) hd
  | merged _ ih => exact .group (obtained_addAll (.made (.ofId Group.unknownId)) ih)

/-- **The standard handlers** make of their arguments what can be obtained. -/
theorem obtained_standard : ∀ entry ∈ Registry.standard, ∀ call : Call,
    Obtained call.args (.value (entry.2 call).value.value) :=
  fun entry hentry call => (composed_standard entry hentry call).obtained

end Handlers

/-- So what is read with the standard handlers is obtained. -/
theorem Document.obtained_read {text : String} {doc : Document} (h : read text = .ok doc) :
    doc.Obtained :=
  fun _ hg => .read obtained_standard h hg

/-! ## Coherence -/

/-- What it is for a part to be coherent, with everything inside it. -/
def Part.Coherent : Part → Prop
  | value v => ∀ w ∈ v.values, w.Coherent
  | group g => ∀ w ∈ (Value.group g).values, w.Coherent
  | items ds => ∀ d ∈ ds, ∀ w ∈ d.value.values, w.Coherent

/-- The operations on groups keep this, and nothing is asked of an array. -/
theorem Value.kept_coherent : Kept Coherent where
  null := trivial
  bool _ := trivial
  ofId := kept_wellMade.ofId
  add := kept_wellMade.add
  array _ _ := trivial

theorem Value.Rebuilt.coherent {v : Value} (h : v.Rebuilt) : v.Coherent := by
  cases v with
  | group g =>
    obtain ⟨id, items, rfl⟩ := h
    exact kept_coherent.addAll (kept_coherent.ofId id) items
  | null | string _ | integer _ | float _ | bool _ | array _ => trivial

theorem Value.WellMade.coherent {v : Value} (h : v.WellMade) : v.Coherent := by
  cases v with
  | group g => exact h
  | null | string _ | integer _ | float _ | bool _ | array _ => trivial

theorem Made.coherent {part : Part} (h : Made part) : part.Coherent := by
  have hmade := h.wellMade
  cases part with
  | value v => exact fun w hw => (hmade w hw).coherent
  | group g => exact fun w hw => (hmade w hw).coherent
  | items ds => exact fun d hd w hw => ((hmade d hd).2 w hw).coherent

/-- What is asked of the handlers of a registry: from coherent arguments, coherent values. -/
def Registry.KeepsCoherent (registry : Registry) : Prop :=
  ∀ entry ∈ registry, ∀ call : Call, (Part.items call.args).Coherent →
    (Part.value (entry.2 call).value.value).Coherent

/-- Scalars are coherent by themselves, so the text that is read does not matter. -/
theorem Document.coherent_of_readWith {registry : Registry} (hregistry : registry.KeepsCoherent)
    {text : String} {doc : Document} (h : (readWith registry text).value = .ok doc) :
    ∀ w ∈ doc.values, w.Coherent := by
  apply forall_of_readWith Value.kept_coherent hregistry h
  rintro ⟨t, p⟩ - tree hscalar
  dsimp only at hscalar
  cases hscalar <;> trivial

/-! ## All parts -/

/-- **Whatever is obtained is coherent**, if what is given is. -/
theorem Obtained.coherent {ds : List Item} {part : Part} (h : Obtained ds part)
    (hds : (Part.items ds).Coherent) : part.Coherent := by
  induction h with
  | made h => exact h.coherent
  | given hd => exact hds _ hd
  -- a handler has its arguments for what is given
  | read _ hdoc hg ih =>
    exact forall_values_document.mp (Document.coherent_of_readWith ih hdoc) _ hg
  | @imported _ root g hg =>
    have hwell := forall_values_document.mp (Document.wellMade_ofHost root) g hg
    exact fun w hw => (hwell w hw).1.coherent
  | loaded hdoc hg =>
    have hrebuilt := forall_values_document.mp (Document.rebuilt_ofSnapshot? hdoc) _ hg
    exact fun w hw => (hrebuilt w hw).coherent
  | @loadedValue _ levels _ _ hv =>
    exact fun w hw => ((Snapshot.rebuilds levels).value _ _ hv w hw).coherent
  | groupOf _ ih => exact ih hds
  | entryOf _ hd ih => exact (forall_values_entries.mp (ih hds)).2 _ hd
  | itemsOf _ ih => exact (forall_values_array.mp (ih hds)).2
  | itemOf _ hd ih => exact ih hds _ hd
  | group _ ih => exact ih hds
  | array _ ih => exact forall_values_array.mpr ⟨trivial, ih hds⟩
  | setId _ id ih =>
    obtain ⟨⟨-, hkeys⟩, hinside⟩ := forall_values_group.mp (ih hds)
    rw [Part.Coherent, forall_values_group, Group.values_setId]
    exact ⟨⟨Group.resolveId_ne id, hkeys⟩, hinside⟩
  | add _ _ ihg ihd => exact Value.kept_coherent.forall_add (ihg hds) (ihd hds)
  | pushItem _ _ ih ihd => exact Items.forall_push (ih hds) (ihd hds)
  | setItem _ index _ ih ihd => exact Items.forall_set (ih hds) index (ihd hds)
  | collect _ ih => exact List.forall_mem_map.mpr fun d hd => ih d hd hds

namespace Document

theorem Obtained.coherent {doc : Document} (h : doc.Obtained) : ∀ w ∈ doc.values, w.Coherent :=
  forall_values_document.mpr fun g hg => (h g hg).coherent (by rintro d ⟨⟩)

/-! ## Snapshots of what is obtained -/

/-- **A snapshot is faithful or refused.** However a document came about, its snapshot is loaded
if all floats are finite and the JSON has no more levels than are read, and it is not loaded
otherwise. Where the doubles in it are read back exactly it is loaded as the same document, and
never as another. -/
theorem loads_obtained {doc : Document} (h : doc.Obtained) :
    ((∀ w ∈ doc.values, w.Finite) ∧ doc.snapshotJson.depth ≤ Json.maxDepth →
        ∃ loaded, ofSnapshot? doc.toSnapshot = some loaded) ∧
      (¬((∀ w ∈ doc.values, w.Finite) ∧ doc.snapshotJson.depth ≤ Json.maxDepth) →
        ofSnapshot? doc.toSnapshot = none) ∧
      ((∀ w ∈ doc.values, w.ReadsExactly) →
        ((∀ w ∈ doc.values, w.Finite) ∧ doc.snapshotJson.depth ≤ Json.maxDepth →
          ofSnapshot? doc.toSnapshot = some doc) ∧
        ∀ doc', ofSnapshot? doc.toSnapshot = some doc' → doc' = doc) := by
  have hloads := ofSnapshot?_toSnapshot h.coherent
  exact ⟨hloads.exists_iff.mpr, hloads.eq_none,
    fun hexact => ⟨hloads.eq_some hexact, hloads.eq_of_precise hexact⟩⟩

/-- A group with an item that has a key, as only loading leaves it, and with a negative zero. An
entry can be added to it; after an infinity is added, its snapshot is refused. -/
theorem loads_obtained_keyed :
    ∃ g : Group, g = ⟨"a", [("k", .float (.zero true))], [.array [⟨some "i", .null⟩]]⟩ ∧
      ofSnapshot? (toSnapshot [g]) = some [g] ∧
      ofSnapshot? (toSnapshot [g.push (.bool true)]) = some [g.push (.bool true)] ∧
      ofSnapshot? (toSnapshot [g.push (.float (.infinity false))]) = none := by
  have hexact : (Binary64.zero true).ReadsExactly := by decide +kernel
  have hloaded : ofSnapshot? (toSnapshot
      [⟨"a", [("k", .float (.zero true))], [.array [⟨some "i", .null⟩]]⟩]) =
      some [⟨"a", [("k", .float (.zero true))], [.array [⟨some "i", .null⟩]]⟩] := by
    refine (ofSnapshot?_toSnapshot ?_).eq_some ?_ ⟨?_, by decide⟩
    · simp [values, Value.values, Group.values, Values.values, Named.values, Items.values,
        Value.Coherent, OrderedMap.keys]
    · simpa [values, Value.values, Group.values, Values.values, Named.values, Items.values,
        Value.ReadsExactly] using hexact
    · simp [values, Value.values, Group.values, Values.values, Named.values,
        Items.values, Value.Finite, Binary64.isFinite, Binary64.zero, Binary64.infinityMagnitude]
  have hpushed : ∀ v, DataLisp.Made (.value v) → Obtained
      [Group.push ⟨"a", [("k", .float (.zero true))], [.array [⟨some "i", .null⟩]]⟩ v] := by
    intro v hv
    have hg : DataLisp.Obtained [] (Part.group ⟨"a", [("k", .float (.zero true))],
        [.array [⟨some "i", .null⟩]]⟩) := .loaded hloaded (List.mem_singleton_self _)
    exact List.forall_mem_singleton.mpr (hg.add (d := .ofValue v) (.made hv))
  refine ⟨_, rfl, hloaded, ?_, ?_⟩
  · refine ((loads_obtained (hpushed _ (.bool true))).2.2 ?_).1 ⟨?_, by decide⟩
    · simpa [values, Value.values, Group.push, Group.values, Values.values, Named.values,
        Items.values, Value.ReadsExactly] using hexact
    · simp [values, Value.values, Group.push, Group.values, Values.values, Named.values,
        Items.values, Value.Finite, Binary64.isFinite, Binary64.zero, Binary64.infinityMagnitude]
  · apply (loads_obtained (hpushed _ (.float (.infinity false)))).2.1
    rintro ⟨hall, -⟩
    have hfinite : (Binary64.infinity false).isFinite = true :=
      hall (.float (.infinity false)) (by simp [values, Value.values, Group.push, Group.values,
        Values.values])
    cases hfinite

end Document

end DataLisp
