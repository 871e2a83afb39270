/-
What is read can be written.

A value is fit for a depth if everything in it is well made, its ids and keys can be spelled,
and it nests no deeper than that (`Value.Fit`). Reading keeps values fit all the way from the
tokens to the document. The scanner makes identifiers and numerals only, so the names and
keys of a derived tree can be spelled; building puts values into groups and arrays by the
operations of the model, which keep them well made; and a tree is as deep as the value that
it builds, or deeper.

Expressions are where this could fail, because a handler may splice and merge its arguments.
A handler keeps fit if from arguments that are fit for a depth it makes a value that is fit
for one level more (`Handler.KeepsFit`): that level is there, since the expression itself
counts as one. All eight standard handlers keep fit (`keepsFit_standard`).
-/
import DataLisp.Proofs.RoundTrip

set_option autoImplicit false

namespace DataLisp

/-! ## Fit values -/

/-- Whether the names in a single value can be spelled. -/
def Value.Spellable : Value → Prop
  | .group g => isWritableId g.id = true ∧ ∀ entry ∈ g.named, isWritableKey entry.1 = true
  | .null | .string _ | .integer _ | .float _ | .bool _ | .array _ => True

/-- Only a float that is not finite keeps a value with such names from being written. -/
theorem Value.writable_of_spellable {v : Value} (h : v.Spellable)
    (hfinite : ∀ x, v = .float x → x.isFinite = true) : v.Writable := by
  cases v with
  | float x => exact hfinite x rfl
  | group g => exact h
  | null | string _ | integer _ | bool _ | array _ => trivial

/-- A value that is well made and can be spelled throughout, and that is no deeper than the
given number of levels. -/
structure Value.Fit (n : Nat) (v : Value) : Prop where
  made : ∀ w ∈ v.values, w.WellMade
  spellable : ∀ w ∈ v.values, w.Spellable
  depth : v.depth ≤ n

/-- An item whose value is fit and whose key, if it has one, can be spelled. -/
structure Item.Fit (n : Nat) (d : Item) : Prop where
  value : d.value.Fit n
  key : ∀ key, d.key = some key → isWritableKey key = true

section Fit

variable {n m : Nat}

/-- What is fit is fit for more levels. -/
theorem Value.Fit.mono {v : Value} (h : v.Fit n) (hle : n ≤ m) : v.Fit m :=
  ⟨h.made, h.spellable, h.depth.trans hle⟩

theorem Item.Fit.mono {d : Item} (h : d.Fit n) (hle : n ≤ m) : d.Fit m :=
  ⟨h.value.mono hle, h.key⟩

theorem fit_ofValue {v : Value} (h : v.Fit n) : (Item.ofValue v).Fit n :=
  ⟨h, by rintro key ⟨⟩⟩

theorem fit_null : Value.null.Fit n :=
  ⟨List.forall_mem_singleton.mpr trivial, List.forall_mem_singleton.mpr trivial, Nat.zero_le n⟩

theorem fit_bool (b : Bool) : (Value.bool b).Fit n :=
  ⟨List.forall_mem_singleton.mpr trivial, List.forall_mem_singleton.mpr trivial, Nat.zero_le n⟩

theorem ne_empty_of_isWritableId {id : String} (h : isWritableId id = true) : id ≠ "" := by
  rintro rfl
  exact absurd h (by decide)

/-- A group is fit if its id and keys can be spelled, its keys are distinct, and its entries
are fit for one level less. -/
theorem fit_group_iff {g : Group} :
    (Value.group g).Fit (n + 1) ↔
      isWritableId g.id = true ∧ (OrderedMap.keys g.named).Nodup ∧ (∀ v ∈ g.anonymous, v.Fit n) ∧
        ∀ entry ∈ g.named, isWritableKey entry.1 = true ∧ entry.2.Fit n := by
  refine ⟨?_, ?_⟩
  · rintro ⟨hmade, hspellable, hdepth⟩
    obtain ⟨⟨-, hkeys⟩, hmade⟩ := forall_values_group.mp hmade
    obtain ⟨hmadeAnonymous, hmadeNamed⟩ := forall_values_inside.mp hmade
    obtain ⟨⟨hid, hwritable⟩, hspellable⟩ := forall_values_group.mp hspellable
    obtain ⟨hspellAnonymous, hspellNamed⟩ := forall_values_inside.mp hspellable
    obtain ⟨hdepthAnonymous, hdepthNamed⟩ := Group.depth_le.mp (Nat.le_of_succ_le_succ hdepth)
    refine ⟨hid, hkeys, ?_, ?_⟩
    · intro v hv
      exact ⟨hmadeAnonymous v hv, hspellAnonymous v hv, hdepthAnonymous v hv⟩
    · intro entry hentry
      exact ⟨hwritable entry hentry, hmadeNamed entry hentry, hspellNamed entry hentry,
        hdepthNamed entry hentry⟩
  · rintro ⟨hid, hkeys, hanonymous, hnamed⟩
    refine ⟨?_, ?_, ?_⟩
    · refine forall_values_group.mpr ⟨⟨ne_empty_of_isWritableId hid, hkeys⟩, ?_⟩
      exact forall_values_inside.mpr ⟨fun v hv => (hanonymous v hv).made,
        fun entry hentry => (hnamed entry hentry).2.made⟩
    · refine forall_values_group.mpr ⟨⟨hid, fun entry hentry => (hnamed entry hentry).1⟩, ?_⟩
      exact forall_values_inside.mpr ⟨fun v hv => (hanonymous v hv).spellable,
        fun entry hentry => (hnamed entry hentry).2.spellable⟩
    · exact Nat.succ_le_succ (Group.depth_le.mpr ⟨fun v hv => (hanonymous v hv).depth,
        fun entry hentry => (hnamed entry hentry).2.depth⟩)

/-- An array takes one level, and its items have no keys. -/
theorem fit_array {items : List Item} (h : ∀ d ∈ items, d.key = none ∧ d.value.Fit n) :
    (Value.array items).Fit (n + 1) where
  made := forall_values_array.mpr ⟨fun d hd => (h d hd).1, fun d hd => (h d hd).2.made⟩
  spellable := forall_values_array.mpr ⟨trivial, fun d hd => (h d hd).2.spellable⟩
  depth := Nat.succ_le_succ (Items.depth_le.mpr fun d hd => (h d hd).2.depth)

/-- Adding a fit entry keeps a group fit, also where it replaces another. -/
theorem fit_add {g : Group} {d : Item} (hg : (Value.group g).Fit (n + 1)) (hd : d.Fit n) :
    (Value.group (g.add d)).Fit (n + 1) := by
  rw [fit_group_iff] at hg ⊢
  obtain ⟨hid, hkeys, hanonymous, hnamed⟩ := hg
  obtain ⟨key, v⟩ := d
  cases key with
  | some key =>
    refine ⟨hid, OrderedMap.nodup_keys_insert hkeys key v, hanonymous, ?_⟩
    intro entry hentry
    rcases OrderedMap.mem_insert hentry with hold | rfl
    · exact hnamed entry hold
    · exact ⟨hd.key key rfl, hd.value⟩
  | none =>
    refine ⟨hid, hkeys, ?_, hnamed⟩
    exact List.forall_mem_append.mpr ⟨hanonymous, List.forall_mem_singleton.mpr hd.value⟩

/-- So does adding any number of them. -/
theorem fit_addAll {g : Group} {ds : List Item} (hg : (Value.group g).Fit (n + 1))
    (hds : ∀ d ∈ ds, d.Fit n) : (Value.group (g.addAll ds)).Fit (n + 1) := by
  induction ds generalizing g with
  | nil => exact hg
  | cons d ds ih =>
    rw [List.forall_mem_cons] at hds
    exact ih (fit_add hg hds.1) hds.2

/-- The named entries of a fit group are fit with their keys. -/
theorem fit_namedItems {g : Group} (hg : (Value.group g).Fit (n + 1)) :
    ∀ d ∈ g.namedItems, d.Fit n := by
  obtain ⟨-, -, -, hnamed⟩ := fit_group_iff.mp hg
  intro d hd
  obtain ⟨entry, hentry, rfl⟩ := List.mem_map.mp hd
  refine ⟨(hnamed entry hentry).2, ?_⟩
  rintro key ⟨⟩
  exact (hnamed entry hentry).1

/-- The anonymous entries are fit and have no key. -/
theorem fit_anonymousItems {g : Group} (hg : (Value.group g).Fit (n + 1)) :
    ∀ d ∈ g.anonymousItems, d.Fit n := by
  obtain ⟨-, -, hanonymous, -⟩ := fit_group_iff.mp hg
  intro d hd
  obtain ⟨v, hv, rfl⟩ := List.mem_map.mp hd
  exact fit_ofValue (hanonymous v hv)

/-- The group without an id of its own, which handlers fill, is fit when it is empty. -/
theorem fit_unknown : (Value.group .unknown).Fit (n + 1) :=
  fit_group_iff.mpr ⟨by decide, List.nodup_nil, by simp [Group.unknown, Group.ofId],
    by simp [Group.unknown, Group.ofId]⟩

end Fit

/-! ## Handlers -/

/-- From arguments that are fit for a depth, a value that is fit for one level more. -/
def Handler.KeepsFit (handler : Handler) : Prop :=
  ∀ n call, (∀ d ∈ call.args, d.Fit n) → (handler call).value.value.Fit (n + 1)

/-- What is made of each element does not depend on what is noted. -/
theorem Noted.value_mapM {ν α β : Type} (f : α → Noted ν β) (as : List α) :
    (as.mapM f).value = as.map fun a => (f a).value := by
  induction as with
  | nil => rfl
  | cons a as ih =>
    rw [List.mapM_cons, Noted.value_bind, Noted.value_bind, ih]
    rfl

namespace Expression

variable {n : Nat}

theorem fit_truthItem (truth : Option Bool) : (truthItem truth).Fit n := by
  cases truth with
  | some b => exact fit_ofValue (fit_bool b)
  | none => exact fit_ofValue fit_null

/-- A choice is as fit as its branches, since it is one of them or null. -/
theorem fit_choose {condition yes : Item} {no : Option Item} (hyes : yes.Fit n)
    (hno : ∀ d, no = some d → d.Fit n) : (choose condition yes no).value.value.Fit n := by
  unfold choose
  rw [Noted.value_bind]
  split
  · exact hyes.value
  · cases no with
    | some d => exact (hno d rfl).value
    | none => exact fit_null
  · exact fit_null

theorem keepsFit_if : Handler.KeepsFit ifHandler := by
  intro n call hargs
  unfold ifHandler
  split
  · rename_i condition yes heq
    rw [heq] at hargs
    have hchosen : (choose condition yes none).value.value.Fit n :=
      fit_choose (hargs yes (by simp)) (by simp)
    exact hchosen.mono (Nat.le_succ n)
  · rename_i condition yes no heq
    rw [heq] at hargs
    have hchosen : (choose condition yes (some no)).value.value.Fit n := by
      refine fit_choose (hargs yes (by simp)) ?_
      rintro d ⟨⟩
      exact hargs no (by simp)
    exact hchosen.mono (Nat.le_succ n)
  · exact fit_null

/-- Several negations make a group, which is the one level more. -/
theorem keepsFit_not : Handler.KeepsFit notHandler := by
  intro n call _
  unfold notHandler
  split
  · exact fit_null
  · exact (fit_truthItem _).value
  · rw [Noted.value_bind, Noted.value_mapM]
    refine fit_addAll fit_unknown ?_
    intro d hd
    obtain ⟨arg, -, rfl⟩ := List.mem_map.mp hd
    exact fit_truthItem _

theorem keepsFit_fold (all : Bool) : Handler.KeepsFit (fold all) := by
  intro n call _
  unfold fold
  split
  · exact fit_null
  · exact (fit_truthItem _).value
  · exact (fit_truthItem _).value

theorem keepsFit_print : Handler.KeepsFit printHandler :=
  fun _ _ _ => fit_null

/-- What an argument adds to a union is as fit as the argument. -/
theorem fit_contribution {d : Item} (hd : d.Fit n) : ∀ e ∈ contribution d, e.Fit n := by
  unfold contribution
  split
  · rename_i g hg
    have hgroup := hd.value
    rw [hg] at hgroup
    cases n with
    -- a group is no value without levels, and its entries are one level further in
    | zero => exact absurd hgroup.depth (Nat.not_succ_le_zero _)
    | succ n =>
      rw [Group.entries, List.forall_mem_append]
      exact ⟨fun e he => (fit_namedItems hgroup e he).mono (Nat.le_succ n),
        fun e he => (fit_anonymousItems hgroup e he).mono (Nat.le_succ n)⟩
  · exact List.forall_mem_singleton.mpr hd

/-- The union of fit arguments takes at most one level more. -/
theorem fit_union {args : List Item} (hargs : ∀ d ∈ args, d.Fit n) :
    (union args).value.Fit (n + 1) := by
  unfold union
  split
  · exact fit_null
  · exact (hargs _ List.mem_cons_self).value.mono (Nat.le_succ n)
  · refine fit_addAll fit_unknown ?_
    rw [List.forall_mem_flatMap]
    exact fun d hd => fit_contribution (hargs d hd)

theorem keepsFit_union : Handler.KeepsFit unionHandler :=
  fun _ _ hargs => fit_union hargs

/-- The entries of the union are fit for one level less than the union, so the new group is no
deeper. -/
theorem keepsFit_named : Handler.KeepsFit namedHandler := by
  intro n call hargs
  have hunion := fit_union hargs
  unfold namedHandler
  split
  · rename_i g hg
    rw [hg] at hunion
    split
    · exact fit_null
    · exact fit_addAll fit_unknown (fit_namedItems hunion)
  · exact fit_null

/-- The same of the anonymous entries. -/
theorem keepsFit_anonymous : Handler.KeepsFit anonymousHandler := by
  intro n call hargs
  have hunion := fit_union hargs
  unfold anonymousHandler
  dsimp only
  split
  · rename_i g hg
    rw [hg] at hunion
    exact fit_addAll fit_unknown (fit_anonymousItems hunion)
  · exact hunion

end Expression

/-- What is asked of a set of handlers. -/
def Registry.KeepsFit (registry : Registry) : Prop :=
  ∀ entry ∈ registry, Handler.KeepsFit entry.2

/-- **All standard handlers keep fit.** -/
theorem keepsFit_standard : Registry.standard.KeepsFit := by
  open Expression in
  simp only [Registry.KeepsFit, Registry.standard, List.forall_mem_cons, List.not_mem_nil,
    false_implies, implies_true, and_true]
  exact ⟨keepsFit_if, keepsFit_not, keepsFit_fold true, keepsFit_fold false, keepsFit_print,
    keepsFit_union, keepsFit_named, keepsFit_anonymous⟩

/-! ## Building -/

open DataLisp.Tree

/-- What may be a key of an entry can be written as one. -/
theorem isWritableKey_of_isKey {t : Token} {key : String} (h : IsKey t key) (ht : t.Proper) :
    isWritableKey key = true := by
  rw [isWritableKey, Bool.or_eq_true]
  cases h with
  | word name =>
    rw [String.toList_ofList]
    exact .inr ht
  | @number n hunsigned =>
    left
    obtain ⟨hproper, -⟩ := ht
    obtain ⟨sign, whole, fraction, exponent⟩ := n
    simp only [Numeral.isUnsigned, Numeral.isInteger, Bool.and_eq_true, Bool.not_eq_true',
      Option.isNone_iff_eq_none] at hunsigned
    obtain ⟨⟨⟨hwhole, rfl⟩, rfl⟩, rfl⟩ := hunsigned
    have hchars : (Numeral.mk none whole none none).text.toList = whole := by
      simp [Numeral.text, Numeral.chars, Sign.chars, Numeral.fractionChars, Numeral.exponentChars]
    rw [hchars, isDigits, hwhole, List.all_eq_true.mpr hproper.whole]
    rfl

/-- The name of a form can be written as the id of a group, and stands for itself. -/
theorem isWritableId_of_proper {name : List Char} (h : (Token.identifier name).Proper) :
    isWritableId (Group.ofId (String.ofList name)).id = true := by
  have hid : (Group.ofId (String.ofList name)).id = String.ofList name :=
    Group.resolveId_of_ne (ofList_ne_empty h)
  rw [hid, isWritableId, String.toList_ofList]
  exact h

section Build

variable {registry : Registry} {n : Nat}

/-- An expression is fit for one level more than its arguments, known or not. -/
theorem fit_evaluate (hregistry : registry.KeepsFit) {call : Call}
    (hargs : ∀ d ∈ call.args, d.Fit n) : (evaluate registry call).value.Fit (n + 1) := by
  unfold evaluate
  split
  · exact fit_null
  · rename_i handler hget
    exact hregistry (call.name, handler) (OrderedMap.mem_of_get? hget) n call hargs

/-- What building makes of a part of a tree. -/
def Tree.Phrase.BuildsFit (registry : Registry) : Phrase → Prop
  | .value tree => (tree.build registry).value.Fit tree.depth
  | .entry e => (e.value.build registry).value.Fit e.value.depth ∧
      ∀ key, e.key = some key → isWritableKey key = true
  | .entries es =>
      (∀ n g, Entries.depth es ≤ n → (Value.group g).Fit (n + 1) →
        (Value.group (Entries.build registry g es).value).Fit (n + 1)) ∧
      ∀ d ∈ (Entries.arguments registry es).value, d.Fit (Entries.depth es)
  | .items trees => ∀ d ∈ (Trees.build registry trees).value,
      d.key = none ∧ d.value.Fit (Trees.depth trees)

/-- A group with no more than a name is fit. -/
theorem fit_ofId {name : List Char} (h : (Token.identifier name).Proper) :
    (Value.group (Group.ofId (String.ofList name))).Fit (n + 1) :=
  fit_group_iff.mpr ⟨isWritableId_of_proper h, List.nodup_nil, by simp [Group.ofId],
    by simp [Group.ofId]⟩

/-- A replaced entry is reported, and otherwise nothing depends on it. -/
theorem addEntry_value (g : Group) (d : Item) (p : Position) :
    (addEntry g d p).value = g.add d := by
  unfold addEntry
  split <;> rfl

/-- Whether an entry is dropped or added, the group stays fit, and the rest of the entries is
added to a fit group. -/
theorem fit_build_cons {g : Group} {key : Option String} {tree : Tree} {p : Position}
    {es : List Entry} (hg : (Value.group g).Fit (n + 1))
    (htree : (⟨key, (tree.build registry).value⟩ : Item).Fit n)
    (hrest : ∀ g, (Value.group g).Fit (n + 1) →
      (Value.group (Entries.build registry g es).value).Fit (n + 1)) :
    (Value.group (Entries.build registry g (⟨key, tree, p⟩ :: es)).value).Fit (n + 1) := by
  rw [Entries.build, Noted.value_bind]
  split
  · exact hrest g hg
  · rw [Noted.value_bind]
    rw [addEntry_value]
    exact hrest _ (fit_add hg htree)

/-- **Building a derived tree gives fit values**, no deeper than the tree, with handlers that
keep fit. -/
theorem Tree.Derives.buildsFit (hregistry : registry.KeepsFit) {phrase : Phrase}
    {ts : List PlacedToken} (h : Derives phrase ts) (hproper : ∀ t ∈ ts, t.token.Proper) :
    phrase.BuildsFit registry := by
  induction h with
  | scalar p h =>
    cases h <;> exact
      ⟨List.forall_mem_singleton.mpr trivial, List.forall_mem_singleton.mpr trivial, Nat.le_refl _⟩
  -- a group is built from its name by adding the entries one after another
  | @group es sep ts name p q r hsep hes ih =>
    have hname : (Token.identifier name).Proper := hproper ⟨.identifier name, q⟩ (by simp)
    obtain ⟨hbuild, -⟩ := ih fun t ht => hproper t (by simp [ht])
    exact hbuild (Entries.depth es) _ (Nat.le_refl _) (fit_ofId hname)
  | array p r hitems ih => exact fit_array (ih fun t ht => hproper t (by simp [ht]))
  -- the arguments are fit for one level less than the expression itself counts
  | expression name p q r hes ih =>
    obtain ⟨-, hargs⟩ := ih fun t ht => hproper t (by simp [ht])
    exact fit_evaluate hregistry hargs
  | plain _ ih => exact ⟨ih hproper, by rintro key ⟨⟩⟩
  | @keyed t key tree ts p q hkey _ ih =>
    refine ⟨ih fun t ht => hproper t (by simp [ht]), ?_⟩
    rintro _ ⟨⟩
    exact isWritableKey_of_isKey hkey (hproper ⟨t, q⟩ (by simp))
  | noEntries => exact ⟨fun n g _ hg => hg, by rintro d ⟨⟩⟩
  | @moreEntries e es ts sep us he hsep _ ihe ihes =>
    obtain ⟨hvalue, hkey⟩ := ihe fun t ht => hproper t (by simp [ht])
    obtain ⟨hbuild, hargs⟩ := ihes fun t ht => hproper t (by simp [ht])
    obtain ⟨key, tree, p⟩ := e
    refine ⟨?_, ?_⟩
    · intro n g hdepth hg
      obtain ⟨htree, hes⟩ := Nat.max_le.mp hdepth
      exact fit_build_cons hg ⟨hvalue.mono htree, hkey⟩ fun g hg => hbuild n g hes hg
    · refine List.forall_mem_cons.mpr ⟨⟨hvalue.mono (Nat.le_max_left _ _), hkey⟩, ?_⟩
      exact fun d hd => (hargs d hd).mono (Nat.le_max_right _ _)
  | noItems => rintro d ⟨⟩
  | @moreItems tree trees ts sep us _ hsep _ ih ihs =>
    have hvalue := ih fun t ht => hproper t (by simp [ht])
    -- a dropped item leaves the others, a kept one has no key
    have hrest : ∀ d ∈ (Trees.build registry trees).value,
        d.key = none ∧ d.value.Fit (Trees.depth (tree :: trees)) := by
      intro d hd
      obtain ⟨hkey, hfit⟩ := ihs (fun t ht => hproper t (by simp [ht])) d hd
      exact ⟨hkey, hfit.mono (Nat.le_max_right _ _)⟩
    intro d hd
    rw [Trees.build, Noted.value_bind, Noted.value_bind, Noted.value_pure] at hd
    split at hd
    · exact hrest d hd
    · rcases List.mem_cons.mp hd with rfl | hd
      · exact ⟨rfl, hvalue.mono (Nat.le_max_left _ _)⟩
      · exact hrest d hd

/-- The groups of a document are as deep as their forms, or less. -/
theorem fit_ofForms (hregistry : registry.KeepsFit) {forms : List Form} {ts : List PlacedToken}
    (h : DerivesText forms ts) (hproper : ∀ t ∈ ts, t.token.Proper)
    (hdepth : ∀ form ∈ forms, form.depth ≤ n) :
    ∀ g ∈ (Document.ofForms registry forms).value, (Value.group g).Fit (n + 1) := by
  induction h with
  | done => rintro g ⟨⟩
  | @more form forms ts us hform hforms ih =>
    rw [List.forall_mem_cons] at hdepth
    have hgroup := hform.buildsFit hregistry fun t ht => hproper t (by simp [ht])
    have hrest := ih (fun t ht => hproper t (by simp [ht])) hdepth.2
    exact List.forall_mem_cons.mpr ⟨hgroup.mono (Nat.succ_le_succ hdepth.1), hrest⟩

end Build

/-! ## Reading and writing -/

namespace Document

/-- **A document that is read is fit**: everything in it is well made and can be spelled, and
it nests within the allowed depth. -/
theorem fit_of_readWith {registry : Registry} (hregistry : registry.KeepsFit) {text : String}
    {doc : Document} (h : (readWith registry text).value = .ok doc) :
    ∀ g ∈ doc, (Value.group g).Fit (maxDepth + 1) := by
  obtain ⟨hparsed, -, rfl⟩ := readWith_eq_ok_iff.mp h
  obtain ⟨-, hderives, hdepth⟩ := Parsed.sound hparsed
  exact fit_ofForms hregistry hderives (Token.scan_sound text).1 hdepth

/-- A fit document whose floats are finite has a text, which is read as that document. -/
theorem readBack_of_fit {doc : Document} (h : ∀ g ∈ doc, (Value.group g).Fit (maxDepth + 1))
    (hfinite : ∀ x, Value.float x ∈ doc.values → x.isFinite = true) (registry : Registry)
    (indent : Nat) :
    ∃ text, doc.write indent = .ok text ∧ (readWith registry text).value = .ok doc := by
  have hmade : doc.WellMade := forall_values_document.mpr fun g hg => (h g hg).made
  have hspellable : ∀ w ∈ doc.values, w.Spellable :=
    forall_values_document.mpr fun g hg => (h g hg).spellable
  have hwritable : ∀ w ∈ doc.values, w.Writable := by
    intro w hw
    refine Value.writable_of_spellable (hspellable w hw) ?_
    rintro x rfl
    exact hfinite x hw
  have hwrite : doc.write indent = .ok (doc.layout indent) := write_eq_ok_iff.mpr ⟨hwritable, rfl⟩
  have hdepth : ∀ g ∈ doc, g.depth ≤ maxDepth := fun g hg => Nat.le_of_succ_le_succ (h g hg).depth
  exact ⟨_, hwrite, (readBack_shallow hmade hwrite hdepth registry).2.2⟩

/-- **Whatever is read can be written and read again.** In a document that reading gives, with
its expressions evaluated, every id and key can be spelled, no item of an array has a key,
and nothing lies deeper than allowed; and if all its floats are finite, it has a text for
every indentation, and that text is read as the same document. -/
theorem write_of_read {text : String} {doc : Document} (hread : read text = .ok doc) :
    (∀ w ∈ doc.values, w.Spellable ∧ w.WellMade) ∧ (∀ g ∈ doc, g.depth ≤ maxDepth) ∧
      ((∀ x, Value.float x ∈ doc.values → x.isFinite = true) →
        ∀ indent, ∃ text', doc.write indent = .ok text' ∧ read text' = .ok doc) := by
  have hfit := fit_of_readWith keepsFit_standard hread
  refine ⟨?_, fun g hg => Nat.le_of_succ_le_succ (hfit g hg).depth, ?_⟩
  · exact forall_values_document.mpr fun g hg w hw =>
      ⟨(hfit g hg).spellable w hw, (hfit g hg).made w hw⟩
  · exact fun hfinite indent => readBack_of_fit hfit hfinite .standard indent

/-- A document with an array, and with a group that an expression has made. -/
theorem write_of_read_named :
    ∃ doc, read "(a [-0.0] $(named (b :k 1)))" = .ok doc ∧
      doc.write 2 = .ok "(a\n  [-0.0]\n  (__unknown__\n    :k 1\n  )\n)\n" ∧
      read "(a\n  [-0.0]\n  (__unknown__\n    :k 1\n  )\n)\n" = .ok doc := by
  -- values have no decidable equality, but their texts have
  have htext : ((read "(a [-0.0] $(named (b :k 1)))").toOption.bind fun doc =>
      (doc.write 2).toOption) = some "(a\n  [-0.0]\n  (__unknown__\n    :k 1\n  )\n)\n" := by
    decide +kernel
  have hfloats : ((read "(a [-0.0] $(named (b :k 1)))").toOption.all fun doc =>
      doc.values.all fun v => v.float?.all Binary64.isFinite) = true := by
    decide +kernel
  cases hread : read "(a [-0.0] $(named (b :k 1)))" with
  | error e =>
    rw [hread] at htext
    cases htext
  | ok doc =>
    rw [hread] at htext hfloats
    have hfinite : ∀ x, Value.float x ∈ doc.values → x.isFinite = true :=
      fun x hx => List.all_eq_true.mp hfloats (.float x) hx
    obtain ⟨text, hwrite, hback⟩ := (write_of_read hread).2.2 hfinite 2
    have hsame : (doc.write 2).toOption = some _ := htext
    rw [hwrite] at hsame
    obtain rfl := Option.some.inj hsame
    exact ⟨doc, rfl, hwrite, hback⟩

end Document

end DataLisp
