/-
Groups with an index of their keys.

A group is kept with more than its entries: beside the list of the named ones there is a hash map
from each key to its position in that list, so that a key is looked up and replaced without a
search. The two have to stay in step, through replacing and appending in any order. That they do
is the invariant `Valid`. One lemma says all that adding an entry can do to a valid group
(`add_cases`), every operation is an addition or a new id (`apply_cases`), and so the invariant
and what lookups see after a run of operations follow by induction on the run (`run_induction`).

Values are left open here, as they may hold groups themselves and nothing depends on what they
are. With the values of documents, a valid group shows what a group of the document model is
(`view`), and the operations of both do the same to it (`view_run`). A snapshot is loaded by such
operations, at every depth (`rebuilt_ofSnapshot?`).
-/
import DataLisp.Document.Equality
import DataLisp.Proofs.Documents
import DataLisp.Proofs.JsonText
import DataLisp.Proofs.OrderedMaps
import DataLisp.Proofs.Snapshots
import Mathlib.Data.String.Basic

set_option autoImplicit false

namespace DataLisp

/-- An entry of either sort: a value that may carry a key. -/
abbrev IndexedGroup.Entry (α : Type) := Option String × α

/-- A group with an index of its keys. -/
structure IndexedGroup (α : Type) where
  id : String
  /-- The named entries, in order of first insertion. -/
  named : List (IndexedGroup.Entry α)
  /-- The position of each key in `named`. -/
  index : Std.ExtHashMap String Nat
  /-- The anonymous entries, in order. -/
  anonymous : List (IndexedGroup.Entry α)

namespace IndexedGroup

variable {α : Type}

/-! ## Operations -/

/-- The same entries under another id. -/
def setId (g : IndexedGroup α) (id : String) : IndexedGroup α :=
  { g with id := Group.resolveId id }

/-- A group without entries. -/
def ofId (id : String) : IndexedGroup α :=
  setId ⟨"", [], ∅, []⟩ id

/-- A group without entries and without an id of its own. -/
def unknown : IndexedGroup α := ofId Group.unknownId

/-- Adds an entry as a named or an anonymous one, as its key says, and returns the named entry
that it replaces, if there is one. -/
def add (g : IndexedGroup α) (e : Entry α) : IndexedGroup α × Option (Entry α) :=
  match e.1 with
  | none => ({ g with anonymous := g.anonymous ++ [e] }, none)
  | some key =>
    match g.index[key]? with
    -- the position is never past the end (`Valid.named_of_index`)
    | some position => ({ g with named := g.named.set position e }, g.named[position]?)
    | none =>
      ({ g with named := g.named ++ [e], index := g.index.insert key g.named.length }, none)

/-- Sets a named entry. -/
def insert (g : IndexedGroup α) (key : String) (v : α) : IndexedGroup α × Option (Entry α) :=
  g.add (some key, v)

/-- Appends an anonymous entry. -/
def push (g : IndexedGroup α) (v : α) : IndexedGroup α :=
  { g with anonymous := g.anonymous ++ [(none, v)] }

/-- The named entry of a key. -/
def get? (g : IndexedGroup α) (key : String) : Option (Entry α) :=
  g.index[key]?.bind fun position => g.named[position]?

/-- Whether there is an entry under a key. -/
def hasKey (g : IndexedGroup α) (key : String) : Bool :=
  g.index.contains key

/-- Whether two lists hold the same entries in the same order, given the equality of values. -/
def sameEntries (sameValue : α → α → Bool) : List (Entry α) → List (Entry α) → Bool
  | [], [] => true
  | e :: es, f :: fs => e.1 == f.1 && sameValue e.2 f.2 && sameEntries sameValue es fs
  | _, _ => false

/-- Whether two groups are the same in every part, the index included. -/
def same (sameValue : α → α → Bool) (g h : IndexedGroup α) : Bool :=
  g.id == h.id && sameEntries sameValue g.named h.named && g.index == h.index &&
    sameEntries sameValue g.anonymous h.anonymous

/-! ## Runs -/

/-- The operations that change a group. -/
inductive Op (α : Type) where
  | setId (id : String)
  | add (e : Entry α)
  | insert (key : String) (v : α)
  | push (v : α)

/-- The group after an operation. -/
def apply (g : IndexedGroup α) : Op α → IndexedGroup α
  | .setId id => g.setId id
  | .add e => (g.add e).1
  | .insert key v => (g.insert key v).1
  | .push v => g.push v

/-- The group after operations in order. -/
def run (g : IndexedGroup α) (ops : List (Op α)) : IndexedGroup α :=
  ops.foldl apply g

/-- The entry that an operation adds. -/
def Op.entry? : Op α → Option (Entry α)
  | .setId _ => none
  | .add e => some e
  | .insert key v => some (some key, v)
  | .push v => some (none, v)

/-- The entries that operations add, in order. -/
def added (ops : List (Op α)) : List (Entry α) :=
  ops.filterMap Op.entry?

/-- Every operation gives a new id or adds an entry. -/
theorem apply_cases (g : IndexedGroup α) (op : Op α) :
    (∃ id, g.apply op = g.setId id ∧ op.entry? = none) ∨
      ∃ e, g.apply op = (g.add e).1 ∧ op.entry? = some e := by
  cases op with
  | setId id => exact .inl ⟨id, rfl, rfl⟩
  | add e => exact .inr ⟨e, rfl, rfl⟩
  | insert key v => exact .inr ⟨(some key, v), rfl, rfl⟩
  | push v => exact .inr ⟨(none, v), rfl, rfl⟩

theorem run_append_singleton (g : IndexedGroup α) (ops : List (Op α)) (op : Op α) :
    run g (ops ++ [op]) = (run g ops).apply op := by
  rw [run, List.foldl_append]
  rfl

/-! ## The invariant -/

/-- The keys of the named entries, in order. -/
def keys (g : IndexedGroup α) : List (Option String) :=
  g.named.map Prod.fst

/-- What is true of a group at all times: it has an id, its named entries have keys and its
anonymous ones have none, no key comes twice, and the index has exactly the keys, each with its
position. -/
structure Valid (g : IndexedGroup α) : Prop where
  id_ne : g.id ≠ ""
  named_keyed : ∀ e ∈ g.named, e.1 ≠ none
  anonymous_free : ∀ e ∈ g.anonymous, e.1 = none
  nodup : g.keys.Nodup
  index_iff : ∀ (key : String) (position : Nat),
    g.index[key]? = some position ↔ g.keys[position]? = some (some key)

theorem valid_setId {g : IndexedGroup α} (h : g.Valid) (id : String) : (g.setId id).Valid :=
  ⟨Group.resolveId_ne id, h.named_keyed, h.anonymous_free, h.nodup, h.index_iff⟩

theorem valid_ofId (id : String) : (ofId id : IndexedGroup α).Valid where
  id_ne := Group.resolveId_ne id
  named_keyed := by simp [ofId, setId]
  anonymous_free := by simp [ofId, setId]
  nodup := List.nodup_nil
  index_iff := by simp [ofId, setId, keys]

section Valid

variable {g h : IndexedGroup α}

/-- The position of a key is that of an entry under it. -/
theorem Valid.named_of_index (hg : g.Valid) {key : String} {position : Nat}
    (h : g.index[key]? = some position) :
    ∃ v, g.named[position]? = some (some key, v) := by
  have hkey := (hg.index_iff key position).mp h
  rw [keys, List.getElem?_map, Option.map_eq_some_iff] at hkey
  obtain ⟨⟨_, v⟩, hentry, rfl⟩ := hkey
  exact ⟨v, hentry⟩

/-- A key that is not in the index is not there. -/
theorem Valid.not_mem_of_index (hg : g.Valid) {key : String} (h : g.index[key]? = none) :
    some key ∉ g.keys := by
  intro hmem
  obtain ⟨position, hposition⟩ := List.mem_iff_getElem?.mp hmem
  rw [(hg.index_iff key position).mpr hposition] at h
  cases h

/-- **All that adding an entry can do**: append an anonymous one, replace the one of its key
where it stands, or append a named one and enter its key. -/
theorem Valid.add_cases (hg : g.Valid) (e : Entry α) :
    (e.1 = none ∧ g.add e = ({ g with anonymous := g.anonymous ++ [e] }, none)) ∨
    (∃ key position v, e.1 = some key ∧ g.index[key]? = some position ∧
      g.named[position]? = some (some key, v) ∧
      g.add e = ({ g with named := g.named.set position e }, some (some key, v))) ∨
    ∃ key, e.1 = some key ∧ g.index[key]? = none ∧ some key ∉ g.keys ∧
      g.add e = ({ g with
        named := g.named ++ [e], index := g.index.insert key g.named.length }, none) := by
  obtain ⟨key?, w⟩ := e
  cases key? with
  | none => exact .inl ⟨rfl, rfl⟩
  | some key =>
    right
    cases hindex : g.index[key]? with
    | some position =>
      obtain ⟨v, hv⟩ := hg.named_of_index hindex
      refine .inl ⟨key, position, v, rfl, hindex, hv, ?_⟩
      simp only [add, hindex, hv]
    | none =>
      refine .inr ⟨key, rfl, hindex, hg.not_mem_of_index hindex, ?_⟩
      simp only [add, hindex]

/-- What stands at a position of a list with one more element. -/
theorem getElem?_append_singleton {β : Type} {l : List β} {a b : β} {i : Nat} :
    (l ++ [a])[i]? = some b ↔ l[i]? = some b ∨ (i = l.length ∧ a = b) := by
  rw [List.getElem?_append]
  split
  · rename_i hlt
    simp [Nat.ne_of_lt hlt]
  · rename_i hge
    rw [List.getElem?_eq_none (Nat.not_lt.mp hge), List.getElem?_singleton]
    simp
    omega

/-- Replacing an entry by one of its key changes no key. -/
theorem keys_replaced {position : Nat} {e old : Entry α} (hold : g.named[position]? = some old)
    (hkey : e.1 = old.1) : (g.named.set position e).map Prod.fst = g.keys := by
  have hthere : (g.named.map Prod.fst)[position]? = some old.1 := by
    rw [List.getElem?_map, hold, Option.map_some]
  obtain ⟨hlt, hat⟩ := List.getElem?_eq_some_iff.mp hthere
  rw [List.map_set, hkey, ← hat, List.set_getElem_self, keys]

/-- A new key at the end is the only one whose position is new. -/
theorem Valid.index_iff_append (hg : g.Valid) {key : String} (hnew : some key ∉ g.keys)
    (other : String) (position : Nat) :
    (g.index.insert key g.named.length)[other]? = some position ↔
      (g.keys ++ [some key])[position]? = some (some other) := by
  have hlength : g.keys.length = g.named.length := List.length_map _
  rw [Std.ExtHashMap.getElem?_insert, getElem?_append_singleton, hlength]
  by_cases hother : key = other
  · subst hother
    have hold : g.keys[position]? ≠ some (some key) := fun h => hnew (List.mem_of_getElem? h)
    simp [hold, eq_comm]
  · rw [if_neg (by simpa using hother), hg.index_iff]
    simp [hother]

theorem valid_add (hg : g.Valid) (e : Entry α) : (g.add e).1.Valid := by
  rcases hg.add_cases e with ⟨he, hadd⟩ | ⟨key, position, v, he, -, hold, hadd⟩ |
    ⟨key, he, -, hnew, hadd⟩
  · rw [hadd]
    refine ⟨hg.id_ne, hg.named_keyed, ?_, hg.nodup, hg.index_iff⟩
    rw [List.forall_mem_append, List.forall_mem_singleton]
    exact ⟨hg.anonymous_free, he⟩
  · -- neither the keys nor the index change
    have hkeys : IndexedGroup.keys { g with named := g.named.set position e } = g.keys :=
      keys_replaced hold he
    rw [hadd]
    refine ⟨hg.id_ne, ?_, hg.anonymous_free, hkeys ▸ hg.nodup, hkeys ▸ hg.index_iff⟩
    intro f hf
    rcases List.mem_or_eq_of_mem_set hf with hf | rfl
    · exact hg.named_keyed f hf
    · exact he ▸ Option.some_ne_none key
  · -- one key is new, and its position is the one after all others
    have hkeys : (g.add e).1.keys = g.keys ++ [some key] := by
      rw [hadd, keys, List.map_append, List.map_singleton, he, keys]
    have hnodup : (g.keys ++ [some key]).Nodup :=
      List.nodup_append.mpr ⟨hg.nodup, List.nodup_singleton _, by
        rintro k hk _ hk' rfl
        exact hnew (List.mem_singleton.mp hk' ▸ hk)⟩
    rw [hadd] at hkeys ⊢
    refine ⟨hg.id_ne, ?_, hg.anonymous_free, hkeys ▸ hnodup, ?_⟩
    · rw [List.forall_mem_append, List.forall_mem_singleton, he]
      exact ⟨hg.named_keyed, Option.some_ne_none key⟩
    · rw [hkeys]
      exact hg.index_iff_append hnew

/-- **Every operation keeps a group valid.** -/
theorem valid_apply (hg : g.Valid) (op : Op α) : (g.apply op).Valid := by
  rcases g.apply_cases op with ⟨id, hop, -⟩ | ⟨e, hop, -⟩
  · rw [hop]
    exact valid_setId hg id
  · rw [hop]
    exact valid_add hg e

/-- **Every run of operations keeps a group valid.** -/
theorem valid_run (hg : g.Valid) (ops : List (Op α)) : (run g ops).Valid := by
  induction ops generalizing g with
  | nil => exact hg
  | cons op ops ih => exact ih (valid_apply hg op)

/-! ## What is seen after a step -/

/-- The entry that an addition replaces is the one that was found under its key. -/
theorem replaced_add (hg : g.Valid) (e : Entry α) : (g.add e).2 = e.1.bind g.get? := by
  rcases hg.add_cases e with ⟨he, hadd⟩ | ⟨key, position, v, he, hindex, hold, hadd⟩ |
    ⟨key, he, hindex, -, hadd⟩
  · rw [hadd, he]
    rfl
  · rw [hadd, he, Option.bind_some, get?, hindex, Option.bind_some, hold]
  · rw [hadd, he, Option.bind_some, get?, hindex, Option.bind_none]

/-- An addition is seen under its own key and under no other. -/
theorem get?_add (hg : g.Valid) (e : Entry α) (key : String) :
    (g.add e).1.get? key = if e.1 = some key then some e else g.get? key := by
  rcases hg.add_cases e with ⟨he, hadd⟩ | ⟨own, position, v, he, hindex, hold, hadd⟩ |
    ⟨own, he, hindex, hnew, hadd⟩
  · rw [hadd, he, if_neg (by simp)]
    rfl
  · -- replaced in place: the index leads where it did
    rw [hadd, he, get?, get?]
    by_cases hkey : own = key
    · subst hkey
      obtain ⟨hlt, -⟩ := List.getElem?_eq_some_iff.mp hold
      rw [if_pos rfl, hindex, Option.bind_some, List.getElem?_set_self hlt]
    · rw [if_neg (by simpa using hkey)]
      refine Option.bind_congr ?_
      intro other hother
      -- another key stands at another position
      refine List.getElem?_set_ne ?_
      rintro rfl
      rw [hg.index_iff] at hindex hother
      exact hkey (by simpa using hindex.symm.trans hother)
  · -- appended: all other positions lie before the new one
    rw [hadd, he, get?, get?, Std.ExtHashMap.getElem?_insert]
    by_cases hkey : own = key
    · subst hkey
      rw [if_pos (beq_self_eq_true own), if_pos rfl, Option.bind_some,
        List.getElem?_concat_length]
    · rw [if_neg (by simpa using hkey), if_neg (by simpa using hkey)]
      refine Option.bind_congr ?_
      intro position hposition
      obtain ⟨v, hv⟩ := hg.named_of_index hposition
      rw [List.getElem?_append_left (List.getElem?_eq_some_iff.mp hv).1]

/-- A new key goes to the end, and a key that is there stays where it is. -/
theorem keys_add (hg : g.Valid) (e : Entry α) :
    (g.add e).1.keys = if e.1 = none ∨ e.1 ∈ g.keys then g.keys else g.keys ++ [e.1] := by
  rcases hg.add_cases e with ⟨he, hadd⟩ | ⟨key, position, v, he, hindex, hold, hadd⟩ |
    ⟨key, he, -, hnew, hadd⟩
  · rw [hadd, if_pos (.inl he)]
    rfl
  · have hmem : e.1 ∈ g.keys := by
      rw [he]
      exact List.mem_of_getElem? ((hg.index_iff key position).mp hindex)
    rw [hadd, if_pos (.inr hmem)]
    exact keys_replaced hold he
  · rw [hadd, he, if_neg (by simpa using hnew), keys, List.map_append, List.map_singleton, he, keys]

/-- What has no key goes to the end of the anonymous entries. -/
theorem anonymous_add (hg : g.Valid) (e : Entry α) :
    (g.add e).1.anonymous = if e.1 = none then g.anonymous ++ [e] else g.anonymous := by
  rcases hg.add_cases e with ⟨he, hadd⟩ | ⟨key, position, v, he, -, -, hadd⟩ |
    ⟨key, he, -, -, hadd⟩
  · rw [hadd, if_pos he]
  · rw [hadd, he, if_neg (by simp)]
  · rw [hadd, he, if_neg (by simp)]

theorem hasKey_eq (hg : g.Valid) (key : String) : g.hasKey key = (g.get? key).isSome := by
  rw [hasKey, get?, Std.ExtHashMap.contains_eq_isSome_getElem?]
  cases hindex : g.index[key]? with
  | none => rfl
  | some position =>
    obtain ⟨v, hv⟩ := hg.named_of_index hindex
    rw [Option.bind_some, hv]
    rfl

end Valid

/-! ## What is seen after a run -/

theorem added_append_singleton (ops : List (Op α)) (op : Op α) :
    added (ops ++ [op]) = added ops ++ op.entry?.toList := by
  rw [added, List.filterMap_append, added]
  cases hop : op.entry? <;> simp [hop]

/-- **Induction over a run.** What is true of a new group and the entries added so far stays true
under another id and with one more entry added to a valid group, so it is true in the end. -/
theorem run_induction {P : IndexedGroup α → List (Entry α) → Prop} {id : String}
    (new : P (ofId id) []) (setId : ∀ g entries id', P g entries → P (g.setId id') entries)
    (add : ∀ g entries e, g.Valid → P g entries → P (g.add e).1 (entries ++ [e]))
    (ops : List (Op α)) : P (run (ofId id) ops) (added ops) := by
  -- the last operation is done last, so the induction goes by the end of the list; that the
  -- group before it is valid is known apart from `P`
  induction ops using List.reverseRecOn with
  | nil => exact new
  | append_singleton ops op ih =>
    rw [run_append_singleton, added_append_singleton]
    rcases (run (ofId id) ops).apply_cases op with ⟨id', hop, hentry⟩ | ⟨e, hop, hentry⟩
    · rw [hop, hentry, Option.toList_none, List.append_nil]
      exact setId _ _ id' ih
    · rw [hop, hentry, Option.toList_some]
      exact add _ _ e (valid_run (valid_ofId id) ops) ih

section Run

variable (id : String) (ops : List (Op α))

/-- **Under a key is the last entry that was added under it.** -/
theorem get?_run (key : String) :
    (run (ofId id) ops).get? key = ((added ops).filter fun e => e.1 = some key).getLast? := by
  refine run_induction (P := fun g entries =>
    g.get? key = (entries.filter fun e => e.1 = some key).getLast?) ?_ ?_ ?_ ops
  · simp [ofId, setId, get?]
  · exact fun _ _ _ h => h
  · intro g entries e hg h
    rw [get?_add hg, h, List.filter_append]
    by_cases hkey : e.1 = some key
    · simp [hkey]
    · simp [hkey]

/-- **The keys stand in the order in which they first came.** -/
theorem keys_run :
    (run (ofId id) ops).keys = (((added ops).map Prod.fst).filter (· ≠ none)).eraseDups := by
  refine run_induction (P := fun g entries =>
    g.keys = ((entries.map Prod.fst).filter (· ≠ none)).eraseDups) ?_ ?_ ?_ ops
  · rfl
  · exact fun _ _ _ h => h
  · intro g entries e hg h
    rw [keys_add hg, h, List.map_append, List.filter_append, List.map_singleton]
    by_cases hkey : e.1 = none
    · simp [hkey]
    · rw [List.filter_cons_of_pos (by simpa using hkey), List.filter_nil,
        OrderedMap.eraseDups_append_singleton]
      exact if_congr (by rw [List.mem_eraseDups, or_iff_right hkey]) rfl rfl

/-- **The anonymous entries are all that were added without a key**, in their order. -/
theorem anonymous_run :
    (run (ofId id) ops).anonymous = (added ops).filter fun e => e.1 = none := by
  refine run_induction (P := fun g entries => g.anonymous = entries.filter fun e => e.1 = none)
    ?_ ?_ ?_ ops
  · rfl
  · exact fun _ _ _ h => h
  · intro g entries e hg h
    rw [anonymous_add hg, h, List.filter_append]
    by_cases hkey : e.1 = none
    · simp [hkey]
    · simp [hkey]

end Run

/-! ## Equality -/

theorem keys_of_sameEntries {sameValue : α → α → Bool} {es fs : List (Entry α)}
    (h : sameEntries sameValue es fs = true) : es.map Prod.fst = fs.map Prod.fst := by
  induction es generalizing fs with
  | nil =>
    cases fs with
    | nil => rfl
    | cons f fs => cases h
  | cons e es ih =>
    cases fs with
    | nil => cases h
    | cons f fs =>
      rw [sameEntries, Bool.and_eq_true, Bool.and_eq_true, beq_iff_eq] at h
      rw [List.map_cons, List.map_cons, h.1.1, ih h.2]

/-- The index of a valid group is determined by its keys. -/
theorem index_eq {g h : IndexedGroup α} (hg : g.Valid) (hh : h.Valid) (hkeys : g.keys = h.keys) :
    g.index = h.index := by
  refine Std.ExtHashMap.ext_getElem? fun key => Option.ext fun position => ?_
  rw [hg.index_iff, hh.index_iff, hkeys]

/-- **Valid groups are the same exactly if their ids and their entries are**: comparing the
indexes as well makes no difference. -/
theorem same_iff {g h : IndexedGroup α} (hg : g.Valid) (hh : h.Valid)
    (sameValue : α → α → Bool) :
    g.same sameValue h = true ↔ g.id = h.id ∧ sameEntries sameValue g.named h.named = true ∧
      sameEntries sameValue g.anonymous h.anonymous = true := by
  rw [same, Bool.and_eq_true, Bool.and_eq_true, Bool.and_eq_true, beq_iff_eq, beq_iff_eq]
  refine ⟨fun ⟨⟨⟨hid, hnamed⟩, _⟩, hanonymous⟩ => ⟨hid, hnamed, hanonymous⟩, ?_⟩
  rintro ⟨hid, hnamed, hanonymous⟩
  -- the same named entries have the same keys, and these determine the index
  exact ⟨⟨⟨hid, hnamed⟩, index_eq hg hh (keys_of_sameEntries hnamed)⟩, hanonymous⟩

/-! ## Groups of the document model -/

/-- The pairs of the entries that have a key. -/
def pairs (es : List (Entry α)) : List (String × α) :=
  es.filterMap fun e => e.1.map fun key => (key, e.2)

/-- A pair as an entry. -/
def ofPair (pair : String × α) : Entry α := (some pair.1, pair.2)

theorem pairs_map_ofPair (m : List (String × α)) : pairs (m.map ofPair) = m := by
  rw [pairs, List.filterMap_map]
  exact List.filterMap_some

theorem map_ofPair_pairs {es : List (Entry α)} (h : ∀ e ∈ es, e.1 ≠ none) :
    (pairs es).map ofPair = es := by
  induction es with
  | nil => rfl
  | cons e rest ih =>
    obtain ⟨key?, v⟩ := e
    rw [List.forall_mem_cons] at h
    obtain ⟨key, rfl⟩ := Option.ne_none_iff_exists'.mp h.1
    exact congrArg ((some key, v) :: ·) (ih h.2)

section Pairs

variable {g : IndexedGroup α}

theorem Valid.keys_eq (hg : g.Valid) : g.keys = (OrderedMap.keys (pairs g.named)).map some := by
  have hnamed := map_ofPair_pairs hg.named_keyed
  rw [keys, ← hnamed, pairs_map_ofPair, OrderedMap.keys, List.map_map, List.map_map]
  rfl

theorem Valid.mem_keys (hg : g.Valid) {key : String} :
    some key ∈ g.keys ↔ key ∈ OrderedMap.keys (pairs g.named) := by
  rw [hg.keys_eq]
  simp

theorem Valid.nodup_pairs (hg : g.Valid) : (OrderedMap.keys (pairs g.named)).Nodup :=
  List.Nodup.of_map some (hg.keys_eq ▸ hg.nodup)

/-- An entry and its pair stand at the same position. -/
theorem Valid.getElem?_pairs (hg : g.Valid) {position : Nat} {key : String} {v : α}
    (h : g.named[position]? = some (some key, v)) :
    (pairs g.named)[position]? = some (key, v) := by
  rw [← map_ofPair_pairs hg.named_keyed, List.getElem?_map, Option.map_eq_some_iff] at h
  obtain ⟨⟨k, w⟩, hpair, heq⟩ := h
  cases heq
  exact hpair

/-- The index finds what a search through the pairs finds. -/
theorem Valid.get?_eq (hg : g.Valid) (key : String) :
    g.get? key = (OrderedMap.get? (pairs g.named) key).map fun v => (some key, v) := by
  rw [get?]
  cases hindex : g.index[key]? with
  | none =>
    have hnew := hg.not_mem_of_index hindex
    rw [hg.mem_keys] at hnew
    rw [OrderedMap.get?_eq_none_iff.mpr hnew]
    rfl
  | some position =>
    obtain ⟨v, hv⟩ := hg.named_of_index hindex
    have hpair := List.mem_of_getElem? (hg.getElem?_pairs hv)
    rw [Option.bind_some, hv, OrderedMap.get?_of_mem hg.nodup_pairs hpair]
    rfl

end Pairs

/-- What a group shows of itself: its id and its entries. -/
def view (g : IndexedGroup Value) : Group :=
  ⟨g.id, pairs g.named, g.anonymous.map Prod.snd⟩

/-- An entry as an item. -/
def item (e : Entry Value) : Item := ⟨e.1, e.2⟩

/-- What an operation does to a group of the document model. -/
def Op.onGroup (g : Group) : Op Value → Group
  | .setId id => g.setId id
  | .add e => g.add (item e)
  | .insert key v => g.insert key v
  | .push v => g.push v

section View

variable {g h : IndexedGroup Value}

/-- **An addition does the same to what a group shows.** -/
theorem view_add (hg : g.Valid) (e : Entry Value) : (g.add e).1.view = g.view.add (item e) := by
  obtain ⟨key?, w⟩ := e
  rcases hg.add_cases (key?, w) with ⟨rfl, hadd⟩ | ⟨key, position, v, rfl, -, hold, hadd⟩ |
    ⟨key, rfl, -, hnew, hadd⟩
  · rw [hadd, view, List.map_append]
    rfl
  · -- replaced at the position from the index, where the search through the pairs ends as well
    have hset : (pairs g.named).set position (key, w) = OrderedMap.insert (pairs g.named) key w :=
      (OrderedMap.insert_of_getElem? hg.nodup_pairs (hg.getElem?_pairs hold) w).symm
    have hpairs : pairs (g.named.set position (ofPair (key, w))) =
        OrderedMap.insert (pairs g.named) key w := by
      rw [← hset, ← pairs_map_ofPair ((pairs g.named).set position (key, w)), List.map_set,
        map_ofPair_pairs hg.named_keyed]
    rw [hadd]
    exact congrArg (fun named => (⟨g.id, named, _⟩ : Group)) hpairs
  · -- what the index does not have, the search does not find
    rw [hg.mem_keys] at hnew
    have hpairs : pairs (g.named ++ [(some key, w)]) =
        OrderedMap.insert (pairs g.named) key w := by
      rw [OrderedMap.insert_of_not_mem hnew, pairs, List.filterMap_append]
      rfl
    rw [hadd, view, hpairs]
    rfl

theorem view_apply (hg : g.Valid) (op : Op Value) : (g.apply op).view = op.onGroup g.view := by
  cases op with
  | setId id => rfl
  | add e => exact view_add hg e
  | insert key v => exact view_add hg (some key, v)
  | push v => exact view_add hg (none, v)

/-- **A run of operations does the same to what a group shows.** -/
theorem view_run (hg : g.Valid) (ops : List (Op Value)) :
    (run g ops).view = ops.foldl Op.onGroup g.view := by
  induction ops generalizing g with
  | nil => rfl
  | cons op ops ih =>
    rw [List.foldl_cons, ← view_apply hg op]
    exact ih (valid_apply hg op)

theorem get?_view (hg : g.Valid) (key : String) :
    g.view.get? key = (g.get? key).map Prod.snd := by
  rw [hg.get?_eq, Option.map_map]
  exact Option.map_id'.symm

theorem hasKey_view (hg : g.Valid) (key : String) : g.view.hasKey key = g.hasKey key := by
  rw [hasKey_eq hg, hg.get?_eq, Option.isSome_map]
  rfl

/-- The item that an addition replaces is the one that the index leads to. -/
theorem replaced?_view (hg : g.Valid) (e : Entry Value) :
    g.view.replaced? (item e) = (g.add e).2.map item := by
  obtain ⟨key?, w⟩ := e
  rw [replaced_add hg]
  cases key? with
  | none => rfl
  | some key =>
    rw [Option.bind_some, hg.get?_eq, Option.map_map]
    rfl

theorem sameEntries_map_ofPair (m m' : List (String × Value)) :
    sameEntries Value.same (m.map ofPair) (m'.map ofPair) = Named.same m m' := by
  induction m generalizing m' with
  | nil => cases m' <;> simp [sameEntries, Named.same]
  | cons pair rest ih =>
    cases m' with
    | nil => simp [sameEntries, Named.same]
    | cons pair' rest' =>
      rw [List.map_cons, List.map_cons, sameEntries, ih rest', Named.same]
      rfl

theorem sameEntries_free {es fs : List (Entry Value)} (hes : ∀ e ∈ es, e.1 = none)
    (hfs : ∀ f ∈ fs, f.1 = none) :
    sameEntries Value.same es fs = Values.same (es.map Prod.snd) (fs.map Prod.snd) := by
  induction es generalizing fs with
  | nil => cases fs <;> simp [sameEntries, Values.same]
  | cons e es ih =>
    cases fs with
    | nil => simp [sameEntries, Values.same]
    | cons f fs =>
      rw [List.forall_mem_cons] at hes hfs
      rw [sameEntries, ih hes.2 hfs.2, hes.1, hfs.1, List.map_cons, List.map_cons, Values.same]
      rfl

/-- **Groups are the same, the index included, exactly if what they show is the same.** -/
theorem same_view (hg : g.Valid) (hh : h.Valid) :
    g.same Value.same h = g.view.same h.view := by
  have hnamed := sameEntries_map_ofPair (pairs g.named) (pairs h.named)
  rw [map_ofPair_pairs hg.named_keyed, map_ofPair_pairs hh.named_keyed] at hnamed
  have hanonymous := sameEntries_free hg.anonymous_free hh.anonymous_free
  rw [Bool.eq_iff_iff, same_iff hg hh, hnamed, hanonymous, view, view, Group.same,
    Bool.and_eq_true, Bool.and_eq_true, beq_iff_eq, and_assoc]

end View

/-! ## All groups -/

/-- What is true of a group to which entries have been added in the given order, and nothing
else. -/
structure Holds (g : IndexedGroup α) (entries : List (Entry α)) : Prop where
  valid : g.Valid
  /-- Under a key is the last entry that was added under it. -/
  get? : ∀ key, g.get? key = (entries.filter fun e => e.1 = some key).getLast?
  hasKey : ∀ key, g.hasKey key = entries.any fun e => e.1 = some key
  /-- The keys stand in the order in which they first came. -/
  keys : g.keys = ((entries.map Prod.fst).filter (· ≠ none)).eraseDups
  anonymous : g.anonymous = entries.filter fun e => e.1 = none
  /-- What one more entry replaces is the last one that was added under its key. -/
  replaced : ∀ e, (g.add e).2 =
    e.1.bind fun key => (entries.filter fun e => e.1 = some key).getLast?

theorem holds_run (id : String) (ops : List (Op α)) : (run (ofId id) ops).Holds (added ops) where
  valid := valid_run (valid_ofId id) ops
  get? := get?_run id ops
  hasKey key := by
    rw [hasKey_eq (valid_run (valid_ofId id) ops), get?_run, Bool.eq_iff_iff]
    simp
  keys := keys_run id ops
  anonymous := anonymous_run id ops
  replaced e := by
    rw [replaced_add (valid_run (valid_ofId id) ops)]
    exact Option.bind_congr fun key _ => get?_run id ops key

/-- What the document model has of a group with an index. -/
structure Represents (g : IndexedGroup Value) (h : Group) : Prop where
  view : g.view = h
  get? : ∀ key, h.get? key = (g.get? key).map Prod.snd
  hasKey : ∀ key, h.hasKey key = g.hasKey key
  replaced : ∀ e, h.replaced? (item e) = (g.add e).2.map item

theorem Valid.represents_view {g : IndexedGroup Value} (hg : g.Valid) : g.Represents g.view :=
  ⟨rfl, get?_view hg, hasKey_view hg, replaced?_view hg⟩

theorem added_map_add (entries : List (Entry α)) : added (entries.map Op.add) = entries := by
  rw [added, List.filterMap_map]
  exact List.filterMap_some

/-- Adding items to a group of the document model is a run of additions. -/
theorem view_adds (id : String) (items : List Item) :
    (run (ofId id) ((items.map fun d => (d.key, d.value)).map Op.add)).view =
      (Group.ofId id).addAll items := by
  have hadd : ∀ (g : Group) (d : Item), Op.onGroup g (.add (d.key, d.value)) = g.add d := by
    intro g d
    cases d
    rfl
  rw [view_run (valid_ofId id), List.map_map, List.foldl_map, Group.addAll]
  exact congrArg (fun f => items.foldl f (Group.ofId id)) (funext fun g => funext (hadd g))

/-- **The representation of groups.** After any operations on a new group its entries and its
index are in step, and lookups, order and what is replaced follow from the entries that were
added. Two such groups are the same, the index included, exactly if ids and entries are. Groups
of the document model are what such groups show, under the same operations. And whatever text a
document is loaded from, each of its groups, at any depth, is what a group shows that additions
have built. -/
theorem representation :
    (∀ (α : Type) (id : String) (ops : List (Op α)), (run (ofId id) ops).Holds (added ops)) ∧
    (∀ (α : Type) (sameValue : α → α → Bool) (id id' : String) (ops ops' : List (Op α)),
      (run (ofId id) ops).same sameValue (run (ofId id') ops') = true ↔
        (run (ofId id) ops).id = (run (ofId id') ops').id ∧
        sameEntries sameValue (run (ofId id) ops).named (run (ofId id') ops').named = true ∧
        sameEntries sameValue (run (ofId id) ops).anonymous
          (run (ofId id') ops').anonymous = true) ∧
    (∀ (id : String) (ops : List (Op Value)),
      (run (ofId id) ops).Represents (ops.foldl Op.onGroup (Group.ofId id))) ∧
    (∀ (id id' : String) (ops ops' : List (Op Value)),
      (run (ofId id) ops).same Value.same (run (ofId id') ops') =
        (ops.foldl Op.onGroup (Group.ofId id)).same (ops'.foldl Op.onGroup (Group.ofId id'))) ∧
    ∀ (text : String) (doc : Document), Document.ofSnapshot? text = some doc →
      ∀ h : Group, Value.group h ∈ doc.values → ∃ (id : String) (entries : List (Entry Value)),
        (run (ofId id) (entries.map Op.add)).Holds entries ∧
          (run (ofId id) (entries.map Op.add)).Represents h := by
  have hview : ∀ (id : String) (ops : List (Op Value)),
      (run (ofId id) ops).view = ops.foldl Op.onGroup (Group.ofId id) := by
    intro id ops
    exact view_run (valid_ofId id) ops
  refine ⟨fun _ => holds_run, ?_, ?_, ?_, ?_⟩
  · intro α sameValue id id' ops ops'
    exact same_iff (valid_run (valid_ofId id) ops) (valid_run (valid_ofId id') ops') sameValue
  · intro id ops
    rw [← hview]
    exact (valid_run (valid_ofId id) ops).represents_view
  · intro id id' ops ops'
    rw [← hview, ← hview]
    exact same_view (valid_run (valid_ofId id) ops) (valid_run (valid_ofId id') ops')
  · -- a loaded group is a run of additions of the document model, to be repeated with an index
    intro text doc hdoc h hmem
    obtain ⟨id, items, rfl⟩ := Document.rebuilt_ofSnapshot? hdoc (.group h) hmem
    refine ⟨id, items.map fun d => (d.key, d.value), ?_, ?_⟩
    · have hholds := holds_run id ((items.map fun d => (d.key, d.value)).map Op.add)
      rw [added_map_add] at hholds
      exact hholds
    · rw [← view_adds]
      exact (valid_run (valid_ofId id) _).represents_view

/-- A snapshot that keeps none of the rules: the id is empty, a named entry has no key, a key
comes twice, and an anonymous entry has one. Structures are written as the arrays of their
fields here. -/
theorem representation_loaded :
    Document.ofSnapshot? (Json.text .compact (.array [.array [.array [.string "",
        .array [.array [.null, .string "Null"], .array [.string "a", .string "Null"],
          .array [.string "a", .object [("Bool", .bool true)]]],
        .array [.array [.string "b", .string "Null"]]]]])) =
      some [⟨"__unknown__", [("a", .bool true), ("b", .null)], [.null]⟩] ∧
    ∃ (id : String) (entries : List (Entry Value)),
      (run (ofId id) (entries.map Op.add)).Holds entries ∧
        (run (ofId id) (entries.map Op.add)).Represents
          ⟨"__unknown__", [("a", .bool true), ("b", .null)], [.null]⟩ := by
  have hload : Document.ofSnapshot? (Json.text .compact (.array [.array [.array [.string "",
        .array [.array [.null, .string "Null"], .array [.string "a", .string "Null"],
          .array [.string "a", .object [("Bool", .bool true)]]],
        .array [.array [.string "b", .string "Null"]]]]])) =
      some [⟨"__unknown__", [("a", .bool true), ("b", .null)], [.null]⟩] := by
    rw [Document.ofSnapshot?, Json.ofText?_text_node]
    rfl
  have hmem : Value.group ⟨"__unknown__", [("a", .bool true), ("b", .null)], [.null]⟩ ∈
      Document.values [⟨"__unknown__", [("a", .bool true), ("b", .null)], [.null]⟩] := by
    simp [Document.values, Value.values]
  exact ⟨hload, representation.2.2.2.2 _ _ hload _ hmem⟩

end IndexedGroup

end DataLisp
