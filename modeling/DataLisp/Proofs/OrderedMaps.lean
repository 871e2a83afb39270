/-
Ordered maps as lists of pairs.

Every map that the operations build has distinct keys, and on maps with distinct keys the
order is easy to follow: inserting a new key appends it (`insert_of_not_mem`), so inserting
new keys in a row appends the row (`insertAll_of_nodup`). Applying a function to the values
of a map commutes with insertion (`mapValues_insertAll`), which is what lets a conversion of
documents be followed through the maps that it fills. A map can be inserted instead of the pairs
that it was built from (`insertAll_ofList`), so maps can be merged in stages.
-/
import DataLisp.Numeral
import DataLisp.OrderedMap
import Mathlib.Data.List.Induction
import Mathlib.Data.List.Nodup

set_option autoImplicit false

namespace DataLisp.OrderedMap

variable {α : Type}

/-- Inserting makes no key come twice. -/
theorem nodup_keys_insert {m : List (String × α)} (h : (keys m).Nodup) (key : String) (value : α) :
    (keys (insert m key value)).Nodup := by
  rw [keys_insert]
  split
  · exact h
  · rename_i hnew
    rw [List.nodup_append]
    refine ⟨h, List.nodup_singleton key, ?_⟩
    intro k hk k' hk' heq
    rw [List.mem_singleton.mp hk'] at heq
    exact hnew (heq ▸ hk)

/-- What is in a map after inserting was in it before, or is what has been inserted. -/
theorem mem_insert {m : List (String × α)} {key : String} {value : α} {entry : String × α}
    (h : entry ∈ insert m key value) : entry ∈ m ∨ entry = (key, value) := by
  induction m with
  | nil => exact .inr (List.mem_singleton.mp h)
  | cons first rest ih =>
    obtain ⟨k, v⟩ := first
    rw [insert] at h
    split at h
    · rcases List.mem_cons.mp h with h | h
      · exact .inr h
      · exact .inl (List.mem_cons_of_mem _ h)
    · rcases List.mem_cons.mp h with h | h
      · exact .inl (h ▸ List.mem_cons_self)
      · exact (ih h).imp_left (List.mem_cons_of_mem _)

/-- A lookup finds nothing exactly if the key is not there. -/
theorem get?_eq_none_iff {m : List (String × α)} {key : String} :
    get? m key = none ↔ key ∉ keys m := by
  rw [get?, List.lookup_eq_none_iff, keys, List.mem_map]
  refine ⟨?_, ?_⟩
  · rintro h ⟨entry, hentry, rfl⟩
    simpa using h entry hentry
  · intro h entry hentry
    simpa using fun heq : key = entry.1 => h ⟨entry, hentry, heq.symm⟩

theorem mem_of_get? {m : List (String × α)} {key : String} {value : α}
    (h : get? m key = some value) : (key, value) ∈ m := by
  obtain ⟨before, after, rfl, -⟩ := List.lookup_eq_some_iff.mp h
  exact List.mem_append_right before List.mem_cons_self

/-- Where keys are distinct, each has the value that stands beside it. -/
theorem get?_of_mem {m : List (String × α)} (h : (keys m).Nodup) {entry : String × α}
    (hentry : entry ∈ m) : get? m entry.1 = some entry.2 := by
  induction m with
  | nil => cases hentry
  | cons first rest ih =>
    obtain ⟨hnew, hrest⟩ := List.nodup_cons.mp h
    rw [get?, List.lookup_cons]
    rcases List.mem_cons.mp hentry with rfl | hentry
    · rw [beq_self_eq_true]
    · have hne : entry.1 ≠ first.1 := fun heq => hnew (heq ▸ List.mem_map_of_mem hentry)
      rw [beq_eq_false_iff_ne.mpr hne]
      exact ih hrest hentry

/-- A new key goes to the end. -/
theorem insert_of_not_mem {m : List (String × α)} {key : String} (h : key ∉ keys m) (value : α) :
    insert m key value = m ++ [(key, value)] := by
  induction m with
  | nil => rfl
  | cons first rest ih =>
    obtain ⟨k, v⟩ := first
    rw [keys, List.map_cons, List.mem_cons, not_or] at h
    rw [insert, if_neg (fun hk => h.1 hk.symm), ih h.2, List.cons_append]

/-- Where keys are distinct, a key that is there is replaced at its position. -/
theorem insert_of_getElem? {m : List (String × α)} (h : (keys m).Nodup) {i : Nat} {key : String}
    {old : α} (hold : m[i]? = some (key, old)) (value : α) :
    insert m key value = m.set i (key, value) := by
  induction m generalizing i with
  | nil => cases hold
  | cons first rest ih =>
    obtain ⟨k, v⟩ := first
    obtain ⟨hnew, hrest⟩ := List.nodup_cons.mp h
    cases i with
    | zero =>
      cases hold
      rw [insert, if_pos rfl, List.set_cons_zero]
    | succ i =>
      rw [List.getElem?_cons_succ] at hold
      have hne : k ≠ key := by
        rintro rfl
        exact hnew (List.mem_map.mpr ⟨(k, old), List.mem_of_getElem? hold, rfl⟩)
      rw [insert, if_neg hne, ih hrest hold, List.set_cons_succ]

/-! ## Insertions in a row -/

theorem insertAll_cons (m : List (String × α)) (entry : String × α) (rest : List (String × α)) :
    insertAll m (entry :: rest) = insertAll (insert m entry.1 entry.2) rest := rfl

theorem insertAll_append (m pairs more : List (String × α)) :
    insertAll m (pairs ++ more) = insertAll (insertAll m pairs) more :=
  List.foldl_append

theorem nodup_keys_insertAll {m : List (String × α)} (h : (keys m).Nodup)
    (pairs : List (String × α)) : (keys (insertAll m pairs)).Nodup := by
  induction pairs generalizing m with
  | nil => exact h
  | cons entry rest ih => exact ih (nodup_keys_insert h entry.1 entry.2)

theorem nodup_keys_ofList (pairs : List (String × α)) : (keys (ofList pairs)).Nodup :=
  nodup_keys_insertAll (m := []) List.nodup_nil pairs

theorem mem_insertAll {m pairs : List (String × α)} {entry : String × α}
    (h : entry ∈ insertAll m pairs) : entry ∈ m ∨ entry ∈ pairs := by
  induction pairs generalizing m with
  | nil => exact .inl h
  | cons first rest ih =>
    rcases ih h with h | h
    · rcases mem_insert h with h | rfl
      · exact .inl h
      · exact .inr List.mem_cons_self
    · exact .inr (List.mem_cons_of_mem _ h)

theorem mem_ofList {pairs : List (String × α)} {entry : String × α} (h : entry ∈ ofList pairs) :
    entry ∈ pairs :=
  (mem_insertAll h).resolve_left List.not_mem_nil

/-- In a row of distinct keys each one is new to those before it. -/
theorem not_mem_keys_of_nodup {m rest : List (String × α)} {entry : String × α}
    (h : (keys (m ++ entry :: rest)).Nodup) : entry.1 ∉ keys m := by
  intro hmem
  rw [keys, List.map_append, List.nodup_append] at h
  exact h.2.2 entry.1 hmem entry.1 (by simp) rfl

/-- **New keys are appended in their order.** -/
theorem insertAll_of_nodup {m pairs : List (String × α)} (h : (keys (m ++ pairs)).Nodup) :
    insertAll m pairs = m ++ pairs := by
  induction pairs generalizing m with
  | nil => exact (List.append_nil m).symm
  | cons entry rest ih =>
    have hnew : entry.1 ∉ keys m := not_mem_keys_of_nodup h
    rw [List.append_cons] at h ⊢
    rw [insertAll_cons, insert_of_not_mem hnew, ih h]

/-- **Distinct keys win over those that are there**, and leave the others alone. -/
theorem get?_insertAll {pairs : List (String × α)} (h : (keys pairs).Nodup)
    (m : List (String × α)) (key : String) :
    get? (insertAll m pairs) key = (get? pairs key).or (get? m key) := by
  induction pairs generalizing m with
  | nil => rfl
  | cons entry rest ih =>
    obtain ⟨k, v⟩ := entry
    obtain ⟨hnew, hrest⟩ := List.nodup_cons.mp h
    rw [insertAll_cons, ih hrest, get?, get?, get?, get?, List.lookup_cons]
    by_cases hkey : key = k
    · subst hkey
      have hnone : get? rest key = none := get?_eq_none_iff.mpr hnew
      have hself := get?_insert_self m key v
      rw [get?] at hnone hself
      rw [hnone, hself, beq_self_eq_true]
      rfl
    · have hother := get?_insert_of_ne (m := m) v hkey
      rw [get?, get?] at hother
      rw [hother, beq_eq_false_iff_ne.mpr hkey]

/-- **The keys of a row of insertions**: those that are there stay where they are, and the new
ones follow in their order. -/
theorem keys_insertAll {pairs : List (String × α)} (h : (keys pairs).Nodup)
    (m : List (String × α)) :
    keys (insertAll m pairs) = keys m ++ (keys pairs).filter fun key => key ∉ keys m := by
  induction pairs generalizing m with
  | nil => exact (List.append_nil _).symm
  | cons entry rest ih =>
    obtain ⟨hnew, hrest⟩ := List.nodup_cons.mp h
    have hcons : keys (entry :: rest) = entry.1 :: keys rest := rfl
    rw [insertAll_cons, ih hrest, keys_insert, hcons]
    by_cases hmem : entry.1 ∈ keys m
    · rw [if_pos hmem, List.filter_cons_of_neg (by simpa using hmem)]
    · rw [if_neg hmem, List.filter_cons_of_pos (by simpa using hmem), List.append_assoc,
        List.singleton_append]
      congr 2
      refine List.filter_congr ?_
      intro key hkey
      have hne : key ≠ entry.1 := fun heq => hnew (heq ▸ hkey)
      simp [hne]

/-- A map with distinct keys is built from its own pairs. -/
theorem ofList_of_nodup {m : List (String × α)} (h : (keys m).Nodup) : ofList m = m :=
  insertAll_of_nodup h

theorem ofList_append_singleton (pairs : List (String × α)) (entry : String × α) :
    ofList (pairs ++ [entry]) = insert (ofList pairs) entry.1 entry.2 :=
  insertAll_append [] pairs [entry]

/-- One more element is new to the list or adds nothing to its elements. -/
theorem eraseDups_append_singleton {β : Type} [BEq β] [LawfulBEq β] (l : List β) (b : β) :
    (l ++ [b]).eraseDups = if b ∈ l then l.eraseDups else l.eraseDups ++ [b] := by
  have hself : [b].eraseDups = [b] := rfl
  rw [List.eraseDups_append]
  split
  · rename_i hmem
    simp [List.removeAll, hmem]
  · rename_i hnew
    simp [List.removeAll, hnew, hself]

/-- The keys of a map that a list builds stand in the order of their first insertion. -/
theorem keys_ofList (pairs : List (String × α)) : keys (ofList pairs) = (keys pairs).eraseDups := by
  induction pairs using List.reverseRecOn with
  | nil => rfl
  -- the last pair is inserted last, so the induction goes by the end of the list
  | append_singleton pairs entry ih =>
    have hkeys : keys (pairs ++ [entry]) = keys pairs ++ [entry.1] := List.map_append
    rw [ofList_append_singleton, keys_insert, ih, hkeys, eraseDups_append_singleton]
    simp only [List.mem_eraseDups]

theorem ofList_eq_nil_iff {pairs : List (String × α)} : ofList pairs = [] ↔ pairs = [] := by
  refine ⟨?_, by rintro rfl; rfl⟩
  intro h
  have hkeys : (keys pairs).eraseDups = [] := by
    rw [← keys_ofList, h]
    rfl
  cases pairs with
  | nil => rfl
  | cons entry rest =>
    have hmem : entry.1 ∈ (keys (entry :: rest)).eraseDups :=
      List.mem_eraseDups.mpr List.mem_cons_self
    rw [hkeys] at hmem
    cases hmem

/-- The value of a key is the one of its last insertion. -/
theorem get?_ofList (pairs : List (String × α)) (key : String) :
    get? (ofList pairs) key = pairs.reverse.lookup key := by
  induction pairs using List.reverseRecOn with
  | nil => rfl
  | append_singleton pairs entry ih =>
    obtain ⟨k, v⟩ := entry
    rw [ofList_append_singleton, List.reverse_append, List.reverse_singleton,
      List.singleton_append, List.lookup_cons]
    by_cases hkey : key = k
    · subst hkey
      rw [get?_insert_self, beq_self_eq_true]
    · rw [get?_insert_of_ne v hkey, ih, beq_eq_false_iff_ne.mpr hkey]

/-- A pair that stays is the last of its key. -/
theorem last_of_mem_ofList {pairs : List (String × α)} {entry : String × α}
    (h : entry ∈ ofList pairs) :
    ∃ before after, pairs = before ++ entry :: after ∧ entry.1 ∉ keys after := by
  induction pairs using List.reverseRecOn with
  | nil => cases h
  | append_singleton pairs last ih =>
    by_cases hkey : entry.1 = last.1
    -- two pairs of one key cannot both stay, so this is the one inserted last
    · have hvalue := get?_of_mem (nodup_keys_ofList (pairs ++ [last])) h
      rw [ofList_append_singleton, hkey, get?_insert_self, Option.some.injEq] at hvalue
      have heq : last = entry := Prod.ext hkey.symm hvalue
      exact ⟨pairs, [], by rw [heq], List.not_mem_nil⟩
    · rw [ofList_append_singleton] at h
      have hold : entry ∈ ofList pairs :=
        (mem_insert h).resolve_right fun heq => hkey (congrArg Prod.fst heq)
      obtain ⟨before, after, rfl, hlast⟩ := ih hold
      refine ⟨before, after ++ [last], by simp, ?_⟩
      rw [keys, List.map_append, List.mem_append, not_or]
      exact ⟨hlast, by simpa using hkey⟩

/-- The values of a map with distinct keys are found under its keys, in their order. -/
theorem filterMap_get?_keys {m : List (String × α)} (h : (keys m).Nodup) :
    (keys m).filterMap (get? m) = m.map Prod.snd := by
  induction m with
  | nil => rfl
  | cons entry rest ih =>
    obtain ⟨key, value⟩ := entry
    obtain ⟨hnew, hrest⟩ := List.nodup_cons.mp h
    have hself : get? ((key, value) :: rest) key = some value := by
      rw [get?, List.lookup_cons, beq_self_eq_true]
    have hothers : ∀ k ∈ keys rest, get? ((key, value) :: rest) k = get? rest k := by
      intro k hk
      have hne : k ≠ key := fun heq => hnew (heq ▸ hk)
      rw [get?, List.lookup_cons, beq_eq_false_iff_ne.mpr hne]
      rfl
    rw [keys, List.map_cons, List.filterMap_cons_some hself, List.map_cons, ← ih hrest]
    exact congrArg (value :: ·) (List.filterMap_congr hothers)

/-- Where keys are distinct, a search through the pairs finds no more than the first of a key. -/
theorem filter_keys {m : List (String × α)} (h : (keys m).Nodup) (key : String) :
    m.filter (fun entry => entry.1 = key) =
      ((get? m key).map fun value => (key, value)).toList := by
  induction m with
  | nil => rfl
  | cons entry rest ih =>
    obtain ⟨k, value⟩ := entry
    obtain ⟨hnew, hrest⟩ := List.nodup_cons.mp h
    rw [get?, List.lookup_cons]
    by_cases hkey : k = key
    · subst hkey
      have hothers : get? rest k = none := get?_eq_none_iff.mpr hnew
      rw [List.filter_cons_of_pos (by simp), ih hrest, hothers, beq_self_eq_true]
      rfl
    · rw [List.filter_cons_of_neg (by simpa using hkey), ih hrest,
        beq_eq_false_iff_ne.mpr (Ne.symm hkey)]
      rfl

/-! ## Insertions of insertions -/

/-- Of two values inserted under one key the first leaves nothing behind. -/
theorem insert_insert_self (m : List (String × α)) (key : String) (old value : α) :
    insert (insert m key old) key value = insert m key value := by
  induction m with
  | nil => exact if_pos rfl
  | cons first rest ih =>
    obtain ⟨k, v⟩ := first
    by_cases hk : k = key
    · rw [insert, if_pos hk, insert, if_pos rfl, insert, if_pos hk]
    · rw [insert, if_neg hk, insert, if_neg hk, ih, insert, if_neg hk]

/-- The value of a key that is there can be replaced before or after another insertion. -/
theorem insert_comm {m : List (String × α)} {key other : String} (value v : α)
    (hmem : key ∈ keys m) (hne : other ≠ key) :
    insert (insert m other v) key value = insert (insert m key value) other v := by
  induction m with
  | nil => cases hmem
  | cons first rest ih =>
    obtain ⟨k, w⟩ := first
    by_cases hother : k = other
    · subst hother
      rw [insert, if_pos rfl, insert, if_neg hne, insert, if_neg hne, insert, if_pos rfl]
    by_cases hkey : k = key
    · subst hkey
      rw [insert, if_neg hother, insert, if_pos rfl, insert, if_pos rfl, insert, if_neg hother]
    · have hrest : key ∈ keys rest := (List.mem_cons.mp hmem).resolve_left (Ne.symm hkey)
      rw [insert, if_neg hother, insert, if_neg hkey, ih hrest, insert, if_neg hkey, insert,
        if_neg hother]

/-- So it can be replaced before or after a row of insertions under other keys. -/
theorem insert_insertAll_comm {m pairs : List (String × α)} {key : String} (value : α)
    (hmem : key ∈ keys m) (hnew : key ∉ keys pairs) :
    insert (insertAll m pairs) key value = insertAll (insert m key value) pairs := by
  induction pairs generalizing m with
  | nil => rfl
  | cons entry rest ih =>
    obtain ⟨k, v⟩ := entry
    rw [keys, List.map_cons, List.mem_cons, not_or] at hnew
    have hthere : key ∈ keys (insert m k v) := by
      rw [keys_insert]
      split
      · exact hmem
      · exact List.mem_append_left _ hmem
    rw [insertAll_cons, insertAll_cons, ih hthere hnew.2, insert_comm value v hmem (Ne.symm hnew.1)]

/-- **Inserting into what is inserted** is inserting afterwards, where the keys are distinct. -/
theorem insertAll_insert {pairs : List (String × α)} (h : (keys pairs).Nodup)
    (m : List (String × α)) (key : String) (value : α) :
    insertAll m (insert pairs key value) = insert (insertAll m pairs) key value := by
  induction pairs generalizing m with
  | nil => rfl
  | cons entry rest ih =>
    obtain ⟨k, v⟩ := entry
    obtain ⟨hnew, hrest⟩ := List.nodup_cons.mp h
    by_cases hk : k = key
    · -- the replaced pair is the first, and no other of these has its key
      subst hk
      have hthere : k ∈ keys (insert m k v) := by
        rw [keys_insert]
        split
        · assumption
        · exact List.mem_append_right _ (List.mem_singleton.mpr rfl)
      rw [insert, if_pos rfl, insertAll_cons, insertAll_cons,
        insert_insertAll_comm value hthere hnew, insert_insert_self]
    · rw [insert, if_neg hk, insertAll_cons, insertAll_cons, ih hrest]

/-- **Inserting a map that pairs have built** is inserting these pairs. -/
theorem insertAll_ofList (m pairs : List (String × α)) :
    insertAll m (ofList pairs) = insertAll m pairs := by
  induction pairs using List.reverseRecOn with
  | nil => rfl
  | append_singleton pairs entry ih =>
    rw [ofList_append_singleton, insertAll_insert (nodup_keys_ofList pairs), ih, insertAll_append]
    rfl

/-- Pairs in a row can be built into a map before the others are inserted. -/
theorem ofList_append_ofList (before pairs after : List (String × α)) :
    ofList (before ++ ofList pairs ++ after) = ofList (before ++ pairs ++ after) := by
  show insertAll [] (before ++ ofList pairs ++ after) = insertAll [] (before ++ pairs ++ after)
  rw [insertAll_append, insertAll_append, insertAll_append, insertAll_append, insertAll_ofList]

/-! ## Functions of the values -/

variable {β γ : Type}

/-- The same keys with a function of their values. -/
def mapValues (f : α → β) (m : List (String × α)) : List (String × β) :=
  m.map fun entry => (entry.1, f entry.2)

theorem mapValues_cons (f : α → β) (key : String) (value : α) (m : List (String × α)) :
    mapValues f ((key, value) :: m) = (key, f value) :: mapValues f m := rfl

theorem keys_mapValues (f : α → β) (m : List (String × α)) : keys (mapValues f m) = keys m := by
  rw [keys, mapValues, List.map_map]
  rfl

theorem mapValues_mapValues (f : α → β) (g : β → γ) (m : List (String × α)) :
    mapValues g (mapValues f m) = mapValues (fun a => g (f a)) m := by
  rw [mapValues, mapValues, List.map_map]
  rfl

theorem mapValues_eq_self {f : α → α} {m : List (String × α)}
    (h : ∀ entry ∈ m, f entry.2 = entry.2) :
    mapValues f m = m := by
  refine (List.map_congr_left ?_).trans (List.map_id m)
  intro entry hentry
  rw [h entry hentry]
  rfl

theorem mapValues_congr {f g : α → β} {m : List (String × α)}
    (h : ∀ entry ∈ m, f entry.2 = g entry.2) : mapValues f m = mapValues g m := by
  refine List.map_congr_left ?_
  intro entry hentry
  rw [h entry hentry]

/-- Changing the values does not change where they stand. -/
theorem mapValues_insert (f : α → β) (m : List (String × α)) (key : String) (value : α) :
    mapValues f (insert m key value) = insert (mapValues f m) key (f value) := by
  induction m with
  | nil => rfl
  | cons first rest ih =>
    obtain ⟨k, v⟩ := first
    by_cases hk : k = key
    · simp only [insert, mapValues, List.map_cons, if_pos hk]
    · simp only [mapValues] at ih
      simp only [insert, mapValues, List.map_cons, if_neg hk, ih]

/-- **Insertion goes along with a function of the values.** -/
theorem mapValues_insertAll (f : α → β) (m pairs : List (String × α)) :
    mapValues f (insertAll m pairs) = insertAll (mapValues f m) (mapValues f pairs) := by
  induction pairs generalizing m with
  | nil => rfl
  | cons entry rest ih =>
    rw [insertAll_cons, ih, mapValues_insert]
    rfl

theorem mapValues_ofList (f : α → β) (pairs : List (String × α)) :
    mapValues f (ofList pairs) = ofList (mapValues f pairs) :=
  mapValues_insertAll f [] pairs

/-! ## Some of the keys -/

/-- Of an insertion, what is kept is an insertion as well, or nothing new. -/
theorem filter_insert (keep : String → Bool) (m : List (String × α)) (key : String) (value : α) :
    (insert m key value).filter (fun entry => keep entry.1) =
      if keep key then insert (m.filter fun entry => keep entry.1) key value
      else m.filter fun entry => keep entry.1 := by
  induction m with
  | nil => cases hkeep : keep key <;> simp [insert, hkeep]
  | cons first rest ih =>
    obtain ⟨k, v⟩ := first
    by_cases hk : k = key
    · subst hk
      cases hkeep : keep k <;> simp [insert, hkeep]
    · rw [insert, if_neg hk, List.filter_cons, List.filter_cons, ih]
      cases keep k
      · rfl
      · cases keep key
        · rfl
        · exact (if_neg hk).symm

/-- **Keys can be left out before or after a map is built.** -/
theorem filter_ofList (keep : String → Bool) (pairs : List (String × α)) :
    (ofList pairs).filter (fun entry => keep entry.1) =
      ofList (pairs.filter fun entry => keep entry.1) := by
  induction pairs using List.reverseRecOn with
  | nil => rfl
  | append_singleton pairs entry ih =>
    rw [ofList_append_singleton, filter_insert, ih, List.filter_append, List.filter_singleton]
    cases keep entry.1
    · rw [cond_false, List.append_nil]
      rfl
    · rw [cond_true, ofList_append_singleton]
      rfl

/-! ## Positions as keys -/

/-- Values under their positions, counted from the given one. -/
def numbered (index : Nat) : List α → List (String × α)
  | [] => []
  | a :: rest => ((Numeral.ofInt index).text, a) :: numbered (index + 1) rest

theorem mapValues_numbered (f : α → β) (index : Nat) (as : List α) :
    mapValues f (numbered index as) = numbered index (as.map f) := by
  induction as generalizing index with
  | nil => rfl
  | cons a rest ih =>
    rw [numbered, List.map_cons, numbered, ← ih]
    rfl

theorem mem_numbered {index : Nat} {as : List α} {entry : String × α}
    (h : entry ∈ numbered index as) :
    (∃ i : Nat, entry.1 = (Numeral.ofInt i).text) ∧ entry.2 ∈ as := by
  induction as generalizing index with
  | nil => cases h
  | cons a rest ih =>
    rcases List.mem_cons.mp h with rfl | h
    · exact ⟨⟨index, rfl⟩, List.mem_cons_self⟩
    · obtain ⟨hkey, hvalue⟩ := ih h
      exact ⟨hkey, List.mem_cons_of_mem _ hvalue⟩

theorem keys_numbered (index : Nat) (as : List α) :
    keys (numbered index as) =
      (List.range' index as.length).map fun i : Nat => (Numeral.ofInt i).text := by
  induction as generalizing index with
  | nil => rfl
  | cons a rest ih =>
    have hcons : keys (numbered index (a :: rest)) =
        (Numeral.ofInt index).text :: keys (numbered (index + 1) rest) := rfl
    rw [hcons, ih, List.length_cons, List.range'_succ, List.map_cons]

/-- Every value stands under its position. -/
theorem mem_numbered_of_getElem? {as : List α} {i : Nat} {a : α} (h : as[i]? = some a)
    (index : Nat) : ((Numeral.ofInt (index + i : Nat)).text, a) ∈ numbered index as := by
  induction as generalizing index i with
  | nil => cases h
  | cons first rest ih =>
    cases i with
    | zero =>
      cases h
      exact List.mem_cons_self
    | succ i =>
      have hrest := ih h (index + 1)
      rw [Nat.succ_add_eq_add_succ] at hrest
      exact List.mem_cons_of_mem _ hrest

end DataLisp.OrderedMap
