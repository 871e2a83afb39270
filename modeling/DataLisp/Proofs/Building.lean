/-
What building makes, and when it takes note of something.

A group takes what its entries come to, less the expressions without a key that come to null
(`Entries.value_build`), so its named entries are the map that its keyed entries build
(`Form.builds`).

There are two occasions on which building takes note of something: an expression is evaluated, or
the key of an entry comes again in its form. Neither depends on what values come to. An expression
is evaluated wherever it stands, and an entry with a key is never dropped, so a key comes again
when it says so in the text. A tree therefore has a list of occasions, in the order of building
(`Tree.occasions`), and the notes of building it are those of its occasions, one after the other,
with any handlers (`Tree.notes_build`).

What is said of expressions or of keys alone is read off that list. The expressions in it are those
of the tree in post-order (`Tree.evaluated_occasions`). The keys in it are those that come again in
the groups of the tree (`Tree.repeated_occasions`); they stand in another order, since what is
inside an entry comes before what is said of its key.
-/
import DataLisp.Proofs.Evaluation

set_option autoImplicit false

namespace DataLisp

open OrderedMap

/-! ## Entries and their values -/

/-- The item that an entry comes to. -/
def Entry.built (registry : Registry) (e : Entry) : Item :=
  ⟨e.key, (e.value.build registry).value⟩

/-- Whether an entry makes one in the group: all do but expressions without a key that come to
null. -/
def Entry.isKept (registry : Registry) (e : Entry) : Bool :=
  !Tree.isDropped e.key e.value (e.value.build registry).value

/-- What a handler sees of an expression: its name, where it stands, and what its entries come
to. -/
def Form.call (registry : Registry) (form : Form) : Call :=
  ⟨form.name, form.position, form.entries.map (Entry.built registry)⟩

section Values

variable {registry : Registry}

/-- The arguments of an expression are what its entries come to; none is dropped. -/
theorem Entries.value_arguments (es : List Entry) :
    (Entries.arguments registry es).value = es.map (Entry.built registry) := by
  induction es with
  | nil => rfl
  | cons e rest ih =>
    obtain ⟨key, tree, p⟩ := e
    rw [Entries.arguments, Noted.value_bind, Noted.value_bind, ih]
    rfl

/-- A group takes what its entries come to, in order. -/
theorem Entries.value_build (g : Group) (es : List Entry) :
    (Entries.build registry g es).value =
      g.addAll ((es.filter (Entry.isKept registry)).map (Entry.built registry)) := by
  induction es generalizing g with
  | nil => rfl
  | cons e rest ih =>
    obtain ⟨key, tree, p⟩ := e
    rw [Entries.build, Noted.value_bind]
    by_cases hdropped : Tree.isDropped key tree (tree.build registry).value = true
    · rw [if_pos hdropped, List.filter_cons_of_neg (by simp [Entry.isKept, hdropped]), ih]
    · rw [if_neg hdropped, List.filter_cons_of_pos (by simp [Entry.isKept, hdropped]),
        Noted.value_bind, addEntry_value, ih]
      rfl

end Values

/-! ## Groups -/

/-- What the group of a form is. -/
structure Form.Builds (registry : Registry) (form : Form) (g : Group) : Prop where
  id : g.id = Group.resolveId form.name
  /-- Its keys are those of the entries, in the order in which they first come. -/
  keys : keys g.named = (form.entries.filterMap Entry.key).eraseDups
  /-- The value of a key is what the last entry with that key comes to. -/
  named : ∀ entry ∈ g.named, ∃ before e after, form.entries = before ++ e :: after ∧
    e.key = some entry.1 ∧ (∀ later ∈ after, later.key ≠ some entry.1) ∧
    entry.2 = (e.value.build registry).value
  /-- Its anonymous entries are what the entries without a key come to, in order, but not where
  that is null and the entry is an expression. -/
  anonymous : g.anonymous = (form.entries.filter fun e => e.key.isNone &&
    !(e.value.isExpression && (e.value.build registry).value.isNull)).map
      fun e => (e.value.build registry).value

section Groups

variable {registry : Registry}

/-- The named entry that an entry comes to, if it has a key. -/
def Entry.named? (registry : Registry) (e : Entry) : Option (String × Value) :=
  (e.built registry).pair?

/-- Every entry with a key is kept, so the pairs that a group is given are those of its keyed
entries. -/
theorem Entries.filterMap_pair? (es : List Entry) :
    ((es.filter (Entry.isKept registry)).map (Entry.built registry)).filterMap Item.pair? =
      es.filterMap (Entry.named? registry) := by
  rw [List.filterMap_map, List.filterMap_filter]
  refine List.filterMap_congr ?_
  rintro ⟨_ | key, tree, p⟩ -
  · exact ite_self none
  · rfl

/-- The anonymous entries of a group: what the entries without a key come to, less expressions that
come to null. -/
theorem Entries.filterMap_free? (es : List Entry) :
    ((es.filter (Entry.isKept registry)).map (Entry.built registry)).filterMap Item.free? =
      (es.filter fun e => e.key.isNone &&
        !(e.value.isExpression && (e.value.build registry).value.isNull)).map
          fun e => (e.value.build registry).value := by
  induction es with
  | nil => rfl
  | cons e rest ih =>
    obtain ⟨_ | key, tree, p⟩ := e
    · have hkept : Entry.isKept registry ⟨none, tree, p⟩ =
          !(tree.isExpression && (tree.build registry).value.isNull) := rfl
      cases hdropped : tree.isExpression && (tree.build registry).value.isNull with
      | true =>
        rw [List.filter_cons_of_neg (by simp [hkept, hdropped]),
          List.filter_cons_of_neg (by simp [hdropped]), ih]
      | false =>
        rw [List.filter_cons_of_pos (by simp [hkept, hdropped]),
          List.filter_cons_of_pos (by simp [hdropped])]
        exact congrArg ((tree.build registry).value :: ·) ih
    · exact ih

/-- **What building makes of a form.** The named entries are those of the map that the keyed
entries build, and the anonymous ones stand in the order of the text. -/
theorem Form.builds (form : Form) : form.Builds registry (form.build registry).value := by
  obtain ⟨name, entries, p⟩ := form
  have hgroup : (Form.build registry ⟨name, entries, p⟩).value =
      ⟨Group.resolveId name, ofList (entries.filterMap (Entry.named? registry)),
        (entries.filter fun e => e.key.isNone &&
          !(e.value.isExpression && (e.value.build registry).value.isNull)).map
            fun e => (e.value.build registry).value⟩ := by
    rw [Form.build, Entries.value_build, Group.addAll_eq, Entries.filterMap_pair?,
      Entries.filterMap_free?]
    rfl
  rw [hgroup]
  refine ⟨rfl, ?_, ?_, rfl⟩
  · rw [keys_ofList, OrderedMap.keys, List.map_filterMap]
    refine congrArg List.eraseDups (List.filterMap_congr ?_)
    rintro ⟨_ | key, tree, p⟩ - <;> rfl
  · intro entry hentry
    obtain ⟨before, after, hpairs, hlast⟩ := last_of_mem_ofList hentry
    obtain ⟨es, more, hes, -, hmore⟩ := List.filterMap_eq_append_iff.mp hpairs
    obtain ⟨skipped, e, later, rfl, -, he, rfl⟩ := List.filterMap_eq_cons_iff.mp hmore
    obtain ⟨key, hkey, rfl⟩ := Option.map_eq_some_iff.mp he
    refine ⟨es ++ skipped, e, later, ?_, hkey, ?_, rfl⟩
    · rw [hes, List.append_assoc]
    -- another entry with that key would have come to a later pair
    · intro e' he' hsame
      refine hlast (List.mem_map.mpr ⟨(key, (e'.value.build registry).value), ?_, rfl⟩)
      refine List.mem_filterMap.mpr ⟨e', he', ?_⟩
      rw [Entry.named?, Item.pair?, Entry.built, hsame]
      rfl

end Groups

/-! ## Occasions -/

/-- An occasion on which building takes note of something. -/
inductive Occasion where
  /-- An expression is evaluated. -/
  | evaluation (form : Form)
  /-- The key of an entry comes again in its form. -/
  | repetition (form : Form) (e : Entry)

namespace Occasion

/-- The expression that is evaluated. -/
def evaluated? : Occasion → Option Form
  | evaluation form => some form
  | repetition _ _ => none

/-- The form and the entry whose key comes again. -/
def repeated? : Occasion → Option (Form × Entry)
  | evaluation _ => none
  | repetition form e => some (form, e)

end Occasion

/-- Whether an entry has a key, and one of those before it has the same. -/
def Entry.comesAgain (before : List Entry) (e : Entry) : Bool :=
  e.key.isSome && decide (e.key ∈ before.map Entry.key)

mutual

/-- The occasions of building a tree, in order. -/
def Tree.occasions : Tree → List Occasion
  | .group form => form.occasions
  | .array items => Trees.occasions items
  | .expression ⟨name, entries, p⟩ =>
    Entries.argumentOccasions entries ++ [.evaluation ⟨name, entries, p⟩]
  | .integer _ | .float _ | .string _ | .bool _ | .null | .invalid => []

/-- The occasions of building a form as a group. -/
def Form.occasions : Form → List Occasion
  | ⟨name, entries, p⟩ => Entries.occasions ⟨name, entries, p⟩ [] entries

/-- The same for the entries of a form that are left, after those before them. -/
def Entries.occasions (form : Form) (before : List Entry) : List Entry → List Occasion
  | [] => []
  | ⟨key, tree, p⟩ :: rest =>
    tree.occasions ++
      ((if Entry.comesAgain before ⟨key, tree, p⟩ then [.repetition form ⟨key, tree, p⟩] else []) ++
        Entries.occasions form (before ++ [⟨key, tree, p⟩]) rest)

/-- The same for the arguments of an expression, whose keys may come again. -/
def Entries.argumentOccasions : List Entry → List Occasion
  | [] => []
  | ⟨_, tree, _⟩ :: rest => tree.occasions ++ Entries.argumentOccasions rest

/-- The same for the items of an array. -/
def Trees.occasions : List Tree → List Occasion
  | [] => []
  | tree :: rest => tree.occasions ++ Trees.occasions rest

end

theorem Entries.argumentOccasions_eq (es : List Entry) :
    Entries.argumentOccasions es = es.flatMap fun e => e.value.occasions := by
  induction es with
  | nil => rfl
  | cons e rest ih =>
    obtain ⟨key, tree, p⟩ := e
    rw [Entries.argumentOccasions, List.flatMap_cons, ih]

theorem Trees.occasions_eq (trees : List Tree) :
    Trees.occasions trees = trees.flatMap Tree.occasions := by
  induction trees with
  | nil => rfl
  | cons tree rest ih => rw [Trees.occasions, List.flatMap_cons, ih]

/-! ## The notes of the occasions -/

/-- The warning that the key of an entry comes again in its form. -/
def Form.duplicate (form : Form) (e : Entry) : Diagnostic :=
  .warning e.position ("duplicate key ':" ++ e.key.getD "" ++ "' in '" ++
    Group.resolveId form.name ++ "', keeping the later value")

/-- What is noted on an occasion. -/
def Occasion.notes (registry : Registry) : Occasion → List BuildNote
  | evaluation form => (Tree.evaluate registry (form.call registry)).notes
  | repetition form e => [.diagnostic (form.duplicate e)]

/-- A group that is being built from the first entries of a form: it has the id of the form, and
the keys that have come. -/
structure Form.Started (form : Form) (before : List Entry) (g : Group) : Prop where
  id : g.id = Group.resolveId form.name
  keys : ∀ key, key ∈ keys g.named ↔ some key ∈ before.map Entry.key

namespace Form.Started

variable {form : Form} {before : List Entry} {g : Group}

/-- Before its first entry, a form has started with nothing but its name. -/
theorem ofId (form : Form) : form.Started [] (Group.ofId form.name) where
  id := rfl
  keys key := by simp [Group.ofId, OrderedMap.keys]

/-- An entry without a key does not count. -/
theorem keyless (h : form.Started before g) {e : Entry} (hkey : e.key = none) :
    form.Started (before ++ [e]) g where
  id := h.id
  keys key := by simp [h.keys key, hkey]

/-- Adding an entry keeps the keys of the group in step with those of the form. -/
theorem add (h : form.Started before g) {e : Entry} (v : Value) :
    form.Started (before ++ [e]) (g.add ⟨e.key, v⟩) := by
  cases hkey : e.key with
  | none => exact ⟨h.id, (h.keyless hkey).keys⟩
  | some k =>
    refine ⟨h.id, ?_⟩
    intro key
    show key ∈ OrderedMap.keys (OrderedMap.insert g.named k v) ↔ _
    have hold := h.keys key
    rw [keys_insert, List.map_append, List.mem_append, ← hold, List.map_singleton,
      List.mem_singleton, hkey, Option.some.injEq]
    split
    · rename_i hthere
      exact (or_iff_left_of_imp fun heq => heq ▸ hthere).symm
    · rw [List.mem_append, List.mem_singleton]

/-- So an entry replaces another exactly if its key comes again. -/
theorem isSome_replaced? (h : form.Started before g) (e : Entry) (v : Value) :
    (g.replaced? ⟨e.key, v⟩).isSome = e.comesAgain before := by
  rw [Entry.comesAgain]
  cases hkey : e.key with
  | none => rfl
  | some k =>
    have hthere : (g.get? k).isSome = decide (some k ∈ before.map Entry.key) := by
      rw [Bool.eq_iff_iff, decide_eq_true_eq, ← h.keys k, Group.get?, ← not_iff_not,
        Bool.not_eq_true, Option.isSome_eq_false_iff, Option.isNone_iff_eq_none]
      exact get?_eq_none_iff
    rw [Group.replaced?, Option.bind_some, Option.isSome_map, hthere]
    rfl

end Form.Started

section Notes

variable {registry : Registry}

/-- Adding an entry is noted exactly if it replaces another. -/
theorem Tree.notes_addEntry (g : Group) (d : Item) (p : Position) :
    (addEntry g d p).notes = if (g.replaced? d).isSome then
      [.diagnostic (.warning p ("duplicate key ':" ++ d.key.getD "" ++ "' in '" ++ g.id ++
        "', keeping the later value"))] else [] := by
  rw [addEntry]
  split <;> rfl

/-- **The notes of the entries of a form** that are left, given those of their values. -/
theorem Entries.notes_build {es : List Entry} (form : Form)
    (hes : ∀ e ∈ es, (e.value.build registry).notes =
      e.value.occasions.flatMap (Occasion.notes registry))
    {before : List Entry} {g : Group} (hg : form.Started before g) :
    (Entries.build registry g es).notes =
      (Entries.occasions form before es).flatMap (Occasion.notes registry) := by
  induction es generalizing before g with
  | nil => rfl
  | cons e rest ih =>
    obtain ⟨key, tree, p⟩ := e
    rw [List.forall_mem_cons] at hes
    rw [Entries.build, Entries.occasions, Noted.notes_bind, hes.1, List.flatMap_append,
      List.flatMap_append]
    congr 1
    by_cases hdropped : Tree.isDropped key tree (tree.build registry).value = true
    · -- only an entry without a key is dropped
      have hkey : key = none := by
        simp only [Tree.isDropped, Bool.and_eq_true, Option.isNone_iff_eq_none] at hdropped
        exact hdropped.1.1
      subst hkey
      rw [if_pos hdropped, ih hes.2 (hg.keyless (e := ⟨none, tree, p⟩) rfl)]
      rfl
    · rw [if_neg hdropped, Noted.notes_bind, Tree.notes_addEntry, addEntry_value,
        ih hes.2 (hg.add (e := ⟨key, tree, p⟩) _), hg.isSome_replaced? ⟨key, tree, p⟩, hg.id]
      congr 1
      split <;> rfl

/-- Among arguments no key comes again: the notes are those of their values alone. -/
theorem Entries.notes_arguments {es : List Entry}
    (hes : ∀ e ∈ es, (e.value.build registry).notes =
      e.value.occasions.flatMap (Occasion.notes registry)) :
    (Entries.arguments registry es).notes =
      (Entries.argumentOccasions es).flatMap (Occasion.notes registry) := by
  induction es with
  | nil => rfl
  | cons e rest ih =>
    obtain ⟨key, tree, p⟩ := e
    rw [List.forall_mem_cons] at hes
    rw [Entries.arguments, Entries.argumentOccasions, Noted.notes_bind, hes.1, Noted.notes_bind,
      ih hes.2, Noted.notes_pure, List.append_nil, List.flatMap_append]

/-- Items have no keys, so an array has the notes of its items. -/
theorem Trees.notes_build {trees : List Tree}
    (htrees : ∀ tree ∈ trees, (tree.build registry).notes =
      tree.occasions.flatMap (Occasion.notes registry)) :
    (Trees.build registry trees).notes =
      (Trees.occasions trees).flatMap (Occasion.notes registry) := by
  induction trees with
  | nil => rfl
  | cons tree rest ih =>
    rw [List.forall_mem_cons] at htrees
    rw [Trees.build, Trees.occasions, Noted.notes_bind, htrees.1, Noted.notes_bind, ih htrees.2,
      Noted.notes_pure, List.append_nil, List.flatMap_append]

/-- **The notes of building a tree are those of its occasions**, whatever the handlers. -/
theorem Tree.notes_build (tree : Tree) :
    (tree.build registry).notes = tree.occasions.flatMap (Occasion.notes registry) := by
  induction tree using Tree.induction with
  | group form ih =>
    obtain ⟨name, entries, p⟩ := form
    rw [Tree.build, Noted.notes_bind, Noted.notes_pure, List.append_nil]
    exact Entries.notes_build ⟨name, entries, p⟩ ih (.ofId ⟨name, entries, p⟩)
  | array items ih =>
    rw [Tree.build, Noted.notes_bind, Noted.notes_pure, List.append_nil, Trees.notes_build ih]
    rfl
  | expression form ih =>
    obtain ⟨name, entries, p⟩ := form
    rw [Tree.build, Noted.notes_bind, Entries.value_arguments, Entries.notes_arguments ih,
      Tree.occasions, List.flatMap_append, List.flatMap_singleton]
    rfl
  | integer _ | float _ | string _ | bool _ | null | invalid => rfl

/-- The notes of a top-level form, which is a group. -/
theorem Form.notes_build (form : Form) :
    (form.build registry).notes = form.occasions.flatMap (Occasion.notes registry) := by
  obtain ⟨name, entries, p⟩ := form
  exact Entries.notes_build ⟨name, entries, p⟩ (fun e _ => e.value.notes_build)
    (.ofId ⟨name, entries, p⟩)

/-- The event that a top-level group has been built. -/
def Form.topEvent (registry : Registry) (form : Form) : Event :=
  let g := (form.build registry).value
  ⟨.trace, "built top group", [("group", g.id), ("entries", toString g.size)]⟩

/-- A document has one group for each form, whatever is noted on the way. -/
theorem Document.value_ofForms (forms : List Form) :
    (ofForms registry forms).value = forms.map fun form => (form.build registry).value := by
  induction forms with
  | nil => rfl
  | cons form rest ih => exact congrArg ((form.build registry).value :: ·) ih

/-- The notes of a document: for each form those of its occasions, and then the event that it has
been built. -/
theorem Document.notes_ofForms (forms : List Form) :
    (ofForms registry forms).notes = forms.flatMap fun form =>
      form.occasions.flatMap (Occasion.notes registry) ++ [.event (form.topEvent registry)] := by
  induction forms with
  | nil => rfl
  | cons form rest ih =>
    rw [ofForms, Noted.notes_bind, Noted.notes_bind, Noted.notes_bind, ih, Noted.notes_pure,
      List.append_nil, List.flatMap_cons, form.notes_build, List.append_assoc]
    rfl

end Notes

/-! ## The expressions of a tree -/

mutual

/-- The expressions of a tree in post-order: those among the arguments of an expression come
before it, and otherwise they come from left to right. -/
def Tree.expressions : Tree → List Form
  | .group form => form.expressions
  | .array items => Trees.expressions items
  | .expression ⟨name, entries, p⟩ => Entries.expressions entries ++ [⟨name, entries, p⟩]
  | .integer _ | .float _ | .string _ | .bool _ | .null | .invalid => []

/-- The same for what lies inside a form. -/
def Form.expressions : Form → List Form
  | ⟨_, entries, _⟩ => Entries.expressions entries

/-- The same for a row of entries. -/
def Entries.expressions : List Entry → List Form
  | [] => []
  | ⟨_, tree, _⟩ :: rest => tree.expressions ++ Entries.expressions rest

/-- The same for the items of an array. -/
def Trees.expressions : List Tree → List Form
  | [] => []
  | tree :: rest => tree.expressions ++ Trees.expressions rest

end

theorem Entries.expressions_eq (es : List Entry) :
    Entries.expressions es = es.flatMap fun e => e.value.expressions := by
  induction es with
  | nil => rfl
  | cons e rest ih =>
    obtain ⟨key, tree, p⟩ := e
    rw [Entries.expressions, List.flatMap_cons, ih]

theorem Trees.expressions_eq (trees : List Tree) :
    Trees.expressions trees = trees.flatMap Tree.expressions := by
  induction trees with
  | nil => rfl
  | cons tree rest ih => rw [Trees.expressions, List.flatMap_cons, ih]

/-- Between the occasions of the entries nothing is evaluated. -/
theorem Entries.evaluated_occasions (form : Form) {es : List Entry}
    (hes : ∀ e ∈ es, e.value.occasions.filterMap Occasion.evaluated? = e.value.expressions)
    (before : List Entry) :
    (Entries.occasions form before es).filterMap Occasion.evaluated? = Entries.expressions es := by
  induction es generalizing before with
  | nil => rfl
  | cons e rest ih =>
    obtain ⟨key, tree, p⟩ := e
    rw [List.forall_mem_cons] at hes
    rw [Entries.occasions, Entries.expressions, List.filterMap_append, List.filterMap_append,
      hes.1, ih hes.2]
    split <;> rfl

/-- **The expressions that are evaluated** are those of the tree, each once. -/
theorem Tree.evaluated_occasions (tree : Tree) :
    tree.occasions.filterMap Occasion.evaluated? = tree.expressions := by
  induction tree using Tree.induction with
  | group form ih =>
    obtain ⟨name, entries, p⟩ := form
    exact Entries.evaluated_occasions ⟨name, entries, p⟩ ih []
  | array items ih =>
    rw [Tree.occasions, Tree.expressions, Trees.occasions_eq, Trees.expressions_eq,
      List.filterMap_flatMap]
    exact List.flatMap_congr ih
  | expression form ih =>
    obtain ⟨name, entries, p⟩ := form
    rw [Tree.occasions, Tree.expressions, Entries.argumentOccasions_eq, Entries.expressions_eq,
      List.filterMap_append, List.filterMap_flatMap]
    exact congrArg (· ++ [_]) (List.flatMap_congr ih)
  | integer _ | float _ | string _ | bool _ | null | invalid => rfl

/-- The expressions that are evaluated inside a form. -/
theorem Form.evaluated_occasions (form : Form) :
    form.occasions.filterMap Occasion.evaluated? = form.expressions := by
  obtain ⟨name, entries, p⟩ := form
  exact Entries.evaluated_occasions ⟨name, entries, p⟩ (fun e _ => e.value.evaluated_occasions) []

/-! ## The groups of a tree -/

mutual

/-- The forms of a tree that are groups: also those inside arrays, and inside the arguments of
expressions. -/
def Tree.statements : Tree → List Form
  | .group form => form.statements
  | .array items => Trees.statements items
  | .expression ⟨_, entries, _⟩ => Entries.statements entries
  | .integer _ | .float _ | .string _ | .bool _ | .null | .invalid => []

/-- A form that is a group, and those inside it. -/
def Form.statements : Form → List Form
  | ⟨name, entries, p⟩ => ⟨name, entries, p⟩ :: Entries.statements entries

/-- The same for a row of entries. -/
def Entries.statements : List Entry → List Form
  | [] => []
  | ⟨_, tree, _⟩ :: rest => tree.statements ++ Entries.statements rest

/-- The same for the items of an array. -/
def Trees.statements : List Tree → List Form
  | [] => []
  | tree :: rest => tree.statements ++ Trees.statements rest

end

theorem Entries.statements_eq (es : List Entry) :
    Entries.statements es = es.flatMap fun e => e.value.statements := by
  induction es with
  | nil => rfl
  | cons e rest ih =>
    obtain ⟨key, tree, p⟩ := e
    rw [Entries.statements, List.flatMap_cons, ih]

theorem Trees.statements_eq (trees : List Tree) :
    Trees.statements trees = trees.flatMap Tree.statements := by
  induction trees with
  | nil => rfl
  | cons tree rest ih => rw [Trees.statements, List.flatMap_cons, ih]

/-- The entries of a form that are left and whose key has come before, each with the form. -/
def Entries.repetitions (form : Form) (before es : List Entry) : List (Form × Entry) :=
  ((es.zipIdx before.length).filter fun place =>
    place.1.comesAgain ((before ++ es).take place.2)).map fun place => (form, place.1)

/-- The entries of a form whose key has come before among its entries, each with the form. -/
def Form.repetitions (form : Form) : List (Form × Entry) :=
  (form.entries.zipIdx.filter fun place =>
    place.1.comesAgain (form.entries.take place.2)).map fun place => (form, place.1)

theorem Entries.repetitions_cons (form : Form) (before : List Entry) (e : Entry)
    (rest : List Entry) :
    Entries.repetitions form before (e :: rest) =
      (if e.comesAgain before then [(form, e)] else []) ++
        Entries.repetitions form (before ++ [e]) rest := by
  rw [repetitions, repetitions, List.zipIdx_cons, List.append_cons, List.length_append,
    List.length_singleton, List.filter_cons, List.append_assoc, List.take_left' rfl]
  split <;> rfl

/-- A form is repeated before or after what lies inside its entries. -/
theorem Entries.repeated_occasions (form : Form) {es : List Entry}
    (hes : ∀ e ∈ es, (e.value.occasions.filterMap Occasion.repeated?).Perm
      (e.value.statements.flatMap Form.repetitions)) (before : List Entry) :
    ((Entries.occasions form before es).filterMap Occasion.repeated?).Perm
      (Entries.repetitions form before es ++
        (Entries.statements es).flatMap Form.repetitions) := by
  induction es generalizing before with
  | nil => exact .nil
  | cons e rest ih =>
    obtain ⟨key, tree, p⟩ := e
    rw [List.forall_mem_cons] at hes
    rw [Entries.occasions, Entries.statements, Entries.repetitions_cons, List.filterMap_append,
      List.filterMap_append, List.flatMap_append, List.append_assoc]
    have hself : (if Entry.comesAgain before ⟨key, tree, p⟩ then
        [Occasion.repetition form ⟨key, tree, p⟩] else []).filterMap Occasion.repeated? =
        if Entry.comesAgain before ⟨key, tree, p⟩ then [(form, ⟨key, tree, p⟩)] else [] := by
      split <;> rfl
    rw [hself]
    -- what lies inside the entry comes before what is said of its key
    refine (hes.1.append ((ih hes.2 (before ++ [⟨key, tree, p⟩])).append_left _)).trans ?_
    refine (List.perm_append_comm_assoc _ _ _).trans (List.Perm.append_left _ ?_)
    exact List.perm_append_comm_assoc _ _ _

/-- **The keys that come again** are those that come again in the groups of the tree, each once. -/
theorem Tree.repeated_occasions (tree : Tree) :
    (tree.occasions.filterMap Occasion.repeated?).Perm
      (tree.statements.flatMap Form.repetitions) := by
  induction tree using Tree.induction with
  | group form ih =>
    obtain ⟨name, entries, p⟩ := form
    exact Entries.repeated_occasions ⟨name, entries, p⟩ ih []
  | array items ih =>
    rw [Tree.occasions, Tree.statements, Trees.occasions_eq, Trees.statements_eq,
      List.filterMap_flatMap, List.flatMap_assoc]
    exact List.Perm.flatMap_left items ih
  | expression form ih =>
    obtain ⟨name, entries, p⟩ := form
    rw [Tree.occasions, Tree.statements, Entries.argumentOccasions_eq, Entries.statements_eq,
      List.filterMap_append, List.filterMap_flatMap, List.flatMap_assoc]
    have hlast : [Occasion.evaluation ⟨name, entries, p⟩].filterMap Occasion.repeated? = [] := rfl
    rw [hlast, List.append_nil]
    exact List.Perm.flatMap_left entries ih
  | integer _ | float _ | string _ | bool _ | null | invalid => exact .nil

/-- The keys that come again in a form and in the groups inside it. -/
theorem Form.repeated_occasions (form : Form) :
    (form.occasions.filterMap Occasion.repeated?).Perm
      (form.statements.flatMap Form.repetitions) := by
  obtain ⟨name, entries, p⟩ := form
  exact Entries.repeated_occasions ⟨name, entries, p⟩ (fun e _ => e.value.repeated_occasions) []

/-! ## The occasions of one sort -/

section Occasions

variable {β : Type} {f : Occasion → List β}

/-- What is noted of evaluations only can be read off the expressions evaluated. -/
theorem Occasion.flatMap_of_evaluated (hf : ∀ form e, f (.repetition form e) = [])
    (os : List Occasion) :
    os.flatMap f = (os.filterMap evaluated?).flatMap fun form => f (.evaluation form) := by
  rw [List.filterMap_eq_flatMap_toList, List.flatMap_assoc]
  refine List.flatMap_congr ?_
  rintro (form | ⟨form, e⟩) -
  · exact (List.flatMap_singleton _ _).symm
  · exact hf form e

/-- What is noted of repeated keys only can be read off the keys that come again. -/
theorem Occasion.flatMap_of_repeated (hf : ∀ form, f (.evaluation form) = [])
    (os : List Occasion) :
    os.flatMap f =
      (os.filterMap repeated?).flatMap fun again => f (.repetition again.1 again.2) := by
  rw [List.filterMap_eq_flatMap_toList, List.flatMap_assoc]
  refine List.flatMap_congr ?_
  rintro (form | ⟨form, e⟩) -
  · exact hf form
  · exact (List.flatMap_singleton _ _).symm

end Occasions

end DataLisp
