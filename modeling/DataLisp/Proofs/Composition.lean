/-
What reading puts together.

Reading has the scalars that tokens write, and it puts them together by few means: arrays of items
without keys, groups to which entries are added one after another, and null or a truth value here
and there. A property of single values that survives these means (`Value.Kept`) is true of
everything in a document that is read, as soon as it is true of what the tokens write and the
handlers keep to it (`Document.forall_of_readWith`).

The standard handlers have no more means than that. What they give is null, a truth value, an
argument or an entry from inside one, or a group of such values without an id of its own
(`Composed`). So they keep to every property that is kept at all. One of these says where a scalar
comes from: no number and no string is in a document that is read unless a token of the text writes
it (`Document.literal_of_read`).
-/
import DataLisp.Proofs.Evaluation

set_option autoImplicit false

namespace DataLisp

/-! ## The standard handlers -/

/-- **What a standard handler can make of its arguments.** -/
inductive Composed (args : List Item) : Value → Prop where
  | null : Composed args .null
  | bool (b : Bool) : Composed args (.bool b)
  | given {d : Item} (hd : d ∈ args) : Composed args d.value
  | entryOf {g : Group} {d : Item} (h : Composed args (.group g)) (hd : d ∈ g.entries) :
      Composed args d.value
  | merged {items : List Item} (h : ∀ d ∈ items, Composed args d.value) :
      Composed args (.group (Group.unknown.addAll items))

namespace Expression

variable {args : List Item}

/-- The answer of a condition: a truth value, or null if there is none. -/
theorem composed_truthItem (truth : Option Bool) : Composed args (truthItem truth).value := by
  cases truth with
  | some b => exact .bool b
  | none => exact .null

/-- A choice is one of its branches, or null if the condition is no truth value or the branch is
missing. -/
theorem composed_choose {condition yes : Item} {no : Option Item}
    (hyes : Composed args yes.value) (hno : ∀ d, no = some d → Composed args d.value) :
    Composed args (choose condition yes no).value.value := by
  unfold choose
  rw [Noted.value_bind]
  split
  · exact hyes
  · cases no with
    | some d => exact hno d rfl
    | none => exact .null
  · exact .null

/-- With two or three arguments `if` is a choice between the later ones, and else it is null. -/
theorem composed_if (call : Call) : Composed call.args (ifHandler call).value.value := by
  unfold ifHandler
  split
  · rename_i condition yes hargs
    have hyes : Composed call.args yes.value := .given (by simp [hargs])
    exact composed_choose hyes (by simp)
  · rename_i condition yes no hargs
    have hyes : Composed call.args yes.value := .given (by simp [hargs])
    have hno : Composed call.args no.value := .given (by simp [hargs])
    apply composed_choose hyes
    rintro d ⟨⟩
    exact hno
  · exact .null

/-- One argument gives one answer, and several give a group of them. -/
theorem composed_not (call : Call) : Composed call.args (notHandler call).value.value := by
  unfold notHandler
  split
  · exact .null
  · exact composed_truthItem _
  · rw [Noted.value_bind, Noted.value_mapM]
    apply Composed.merged
    rw [List.forall_mem_map]
    exact fun arg _ => composed_truthItem _

theorem composed_fold (all : Bool) (call : Call) :
    Composed call.args (fold all call).value.value := by
  unfold fold
  split
  · exact .null
  · exact composed_truthItem _
  · exact composed_truthItem _

/-- What an argument adds to a union is itself, or the entries of a group. -/
theorem composed_contribution {d : Item} (hd : Composed args d.value) :
    ∀ e ∈ contribution d, Composed args e.value := by
  unfold contribution
  split
  · rename_i g hg
    rw [hg] at hd
    exact fun e he => .entryOf hd he
  · exact List.forall_mem_singleton.mpr hd

/-- A union without arguments is null, of one it is that argument, and else it merges what the
arguments add. -/
theorem composed_union (args : List Item) : Composed args (union args).value := by
  unfold union
  split
  · exact .null
  · exact .given List.mem_cons_self
  · apply Composed.merged
    rw [List.forall_mem_flatMap]
    exact fun d hd => composed_contribution (.given hd)

/-- The named part of a union merges entries of that union. -/
theorem composed_named (call : Call) : Composed call.args (namedHandler call).value.value := by
  have hunion := composed_union call.args
  unfold namedHandler
  split
  · rename_i g hg
    rw [hg] at hunion
    split
    · exact .null
    · exact .merged fun d hd => .entryOf hunion (List.mem_append_left _ hd)
  · exact .null

/-- The anonymous part merges entries of the union too, and a union that is no group is kept whole.
-/
theorem composed_anonymous (call : Call) :
    Composed call.args (anonymousHandler call).value.value := by
  have hunion := composed_union call.args
  unfold anonymousHandler
  dsimp only
  split
  · rename_i g hg
    rw [hg] at hunion
    exact .merged fun d hd => .entryOf hunion (List.mem_append_right _ hd)
  · exact hunion

end Expression

/-- **All standard handlers** only put together what they are given. -/
theorem composed_standard : ∀ entry ∈ Registry.standard, ∀ call : Call,
    Composed call.args (entry.2 call).value.value := by
  open Expression in
  simp only [Registry.standard, List.forall_mem_cons, List.not_mem_nil, false_implies,
    implies_true, and_true]
  exact ⟨composed_if, composed_not, composed_fold true, composed_fold false, fun _ => .null,
    fun call => composed_union call.args, composed_named, composed_anonymous⟩

/-- What is put together from arguments has every kept property that they have throughout. -/
theorem Composed.forall_values {P : Value → Prop} (hP : Value.Kept P) {args : List Item} {v : Value}
    (h : Composed args v) (hargs : ∀ d ∈ args, ∀ w ∈ d.value.values, P w) :
    ∀ w ∈ v.values, P w := by
  induction h with
  | null => exact hP.forall_null
  | bool b => exact List.forall_mem_singleton.mpr (hP.bool b)
  | given hd => exact hargs _ hd
  | entryOf _ hd ih => exact (forall_values_entries.mp ih).2 _ hd
  | merged _ ih => exact hP.forall_addAll (hP.forall_ofId Group.unknownId) ih

/-! ## Building -/

open DataLisp.Tree

/-- Whether the handlers of a registry keep to a property: from arguments that have it throughout
they make a value that has it throughout. -/
def Registry.Keeps (registry : Registry) (P : Value → Prop) : Prop :=
  ∀ entry ∈ registry, ∀ call : Call, (∀ d ∈ call.args, ∀ w ∈ d.value.values, P w) →
    ∀ w ∈ (entry.2 call).value.value.values, P w

/-- So the standard handlers keep to every kept property. -/
theorem keeps_standard {P : Value → Prop} (hP : Value.Kept P) : Registry.standard.Keeps P :=
  fun entry hentry call => (composed_standard entry hentry call).forall_values hP

section Build

variable {registry : Registry} {P : Value → Prop}

/-- An expression whose handler is unknown is null, which has every kept property. -/
theorem forall_evaluate (hP : Value.Kept P) (hregistry : registry.Keeps P) {call : Call}
    (hargs : ∀ d ∈ call.args, ∀ w ∈ d.value.values, P w) :
    ∀ w ∈ (evaluate registry call).value.values, P w := by
  unfold evaluate
  split
  · exact hP.forall_null
  · rename_i handler hget
    exact hregistry (call.name, handler) (OrderedMap.mem_of_get? hget) call hargs

/-- What a property means for a part of a tree, once that is built. -/
def Tree.Phrase.Builds (registry : Registry) (P : Value → Prop) : Phrase → Prop
  | .value tree => ∀ w ∈ (tree.build registry).value.values, P w
  | .entry e => ∀ w ∈ (e.value.build registry).value.values, P w
  | .entries es =>
      (∀ g, (∀ w ∈ (Value.group g).values, P w) →
        ∀ w ∈ (Value.group (Entries.build registry g es).value).values, P w) ∧
      ∀ d ∈ (Entries.arguments registry es).value, ∀ w ∈ d.value.values, P w
  | .items trees => ∀ d ∈ (Trees.build registry trees).value,
      d.key = none ∧ ∀ w ∈ d.value.values, P w

/-- **Building keeps what is kept**, if the scalars that tokens write have it. -/
theorem Tree.Derives.builds (hP : Value.Kept P) (hregistry : registry.Keeps P) {phrase : Phrase}
    {ts : List PlacedToken} (h : Derives phrase ts)
    (hscalar : ∀ t ∈ ts, ∀ tree, IsScalar t.token tree → P (tree.build registry).value) :
    phrase.Builds registry P := by
  induction h with
  | scalar p h =>
    have hself := hscalar ⟨_, p⟩ (List.mem_singleton_self _) _ h
    cases h <;> exact List.forall_mem_singleton.mpr hself
  -- a group is built from its name by adding the entries one after another
  | group name p q r hsep hes ih =>
    exact (ih fun t ht => hscalar t (by simp [ht])).1 _ (hP.forall_ofId _)
  | array p r hitems ih =>
    have hall := ih fun t ht => hscalar t (by simp [ht])
    exact forall_values_array.mpr ⟨hP.array _ fun d hd => (hall d hd).1, fun d hd => (hall d hd).2⟩
  | expression name p q r hes ih =>
    exact forall_evaluate hP hregistry (ih fun t ht => hscalar t (by simp [ht])).2
  | plain _ ih => exact ih hscalar
  | keyed p q hkey _ ih => exact ih fun t ht => hscalar t (by simp [ht])
  | noEntries => exact ⟨fun g hg => hg, by rintro d ⟨⟩⟩
  | @moreEntries e es ts sep us he hsep _ ihe ihes =>
    have hvalue := ihe fun t ht => hscalar t (by simp [ht])
    obtain ⟨hbuild, hargs⟩ := ihes fun t ht => hscalar t (by simp [ht])
    obtain ⟨key, tree, p⟩ := e
    refine ⟨?_, List.forall_mem_cons.mpr ⟨hvalue, hargs⟩⟩
    intro g hg
    rw [Entries.build, Noted.value_bind]
    split
    · exact hbuild g hg
    · rw [Noted.value_bind, addEntry_value]
      exact hbuild _ (hP.forall_add hg hvalue)
  | noItems => rintro d ⟨⟩
  | @moreItems tree trees ts sep us _ hsep _ ih ihs =>
    have hvalue := ih fun t ht => hscalar t (by simp [ht])
    have hrest := ihs fun t ht => hscalar t (by simp [ht])
    show ∀ d ∈ (Trees.build registry (tree :: trees)).value, _
    rw [Trees.build, Noted.value_bind, Noted.value_bind, Noted.value_pure]
    -- a dropped item leaves the others, a kept one has no key
    split
    · exact hrest
    · exact List.forall_mem_cons.mpr ⟨⟨rfl, hvalue⟩, hrest⟩

/-- The top-level groups of a text, each built on its own. -/
theorem forall_ofForms (hP : Value.Kept P) (hregistry : registry.Keeps P) {forms : List Form}
    {ts : List PlacedToken} (h : DerivesText forms ts)
    (hscalar : ∀ t ∈ ts, ∀ tree, IsScalar t.token tree → P (tree.build registry).value) :
    ∀ w ∈ (Document.ofForms registry forms).value.values, P w := by
  rw [forall_values_document]
  induction h with
  | done => rintro g ⟨⟩
  | more hform hforms ih =>
    have hgroup := hform.builds hP hregistry fun t ht => hscalar t (by simp [ht])
    exact List.forall_mem_cons.mpr ⟨hgroup, ih fun t ht => hscalar t (by simp [ht])⟩

end Build

/-! ## Reading -/

/-- Whether a single value is null, a truth value or no scalar, or else one that a token of the
row writes. -/
def Value.Literal (ts : List PlacedToken) : Value → Prop
  | .integer i => ∃ t ∈ ts, IsScalar t.token (.integer i)
  | .float x => ∃ t ∈ ts, IsScalar t.token (.float x)
  | .string s => ∃ t ∈ ts, IsScalar t.token (.string s)
  | .null | .bool _ | .group _ | .array _ => True

theorem Value.kept_literal (ts : List PlacedToken) : Kept (Literal ts) where
  null := trivial
  bool _ := trivial
  ofId _ := trivial
  add _ _ _ := trivial
  array _ _ := trivial

namespace Document

variable {text : String} {doc : Document}

/-- **What is kept is true of all that is read**, if it is true of the scalars of the text. -/
theorem forall_of_readWith {registry : Registry} {P : Value → Prop} (hP : Value.Kept P)
    (hregistry : registry.Keeps P) (h : (readWith registry text).value = .ok doc)
    (hscalar : ∀ t ∈ (Token.scan text).tokens, ∀ tree, IsScalar t.token tree →
      P (tree.build registry).value) : ∀ w ∈ doc.values, P w := by
  obtain ⟨hparsed, -, rfl⟩ := readWith_eq_ok_iff.mp h
  obtain ⟨-, hderives, -⟩ := Parsed.sound hparsed
  exact forall_ofForms hP hregistry hderives hscalar

/-- **No number and no string is read that the text does not write.** -/
theorem literal_of_read (h : read text = .ok doc) :
    ∀ w ∈ doc.values, w.Literal (Token.scan text).tokens := by
  apply forall_of_readWith (Value.kept_literal _) (keeps_standard (Value.kept_literal _)) h
  rintro ⟨t, p⟩ ht tree hscalar
  dsimp only at hscalar
  cases hscalar with
  | integer hi => exact ⟨_, ht, .integer hi⟩
  | float n => exact ⟨_, ht, .float n⟩
  | string content => exact ⟨_, ht, .string content⟩
  | bool _ | null => trivial

end Document

end DataLisp
