/-
Maps that remember when a key first came.

An ordered map is a list of pairs. Inserting a key that is there replaces its value
and leaves it where it stands; a new key goes to the end. So the keys stand in the
order of their first insertion, each once, and each with the value of its last one.

The named entries of a group, the members of a host map, the members of a JSON object
and the handlers of a registry all follow this one rule.
-/
set_option autoImplicit false

namespace DataLisp.OrderedMap

variable {α : Type}

/-- The value of a key. -/
def get? (m : List (String × α)) (key : String) : Option α :=
  m.lookup key

/-- Whether a key is there. -/
def contains (m : List (String × α)) (key : String) : Bool :=
  (get? m key).isSome

/-- The keys, in order. -/
def keys (m : List (String × α)) : List String :=
  m.map Prod.fst

/-- Replaces the value of a key where it stands, or adds the key at the end. -/
def insert : List (String × α) → String → α → List (String × α)
  | [], key, value => [(key, value)]
  | (k, v) :: rest, key, value =>
    if k = key then (key, value) :: rest else (k, v) :: insert rest key value

/-- Inserts pairs in order. -/
def insertAll (m : List (String × α)) (pairs : List (String × α)) : List (String × α) :=
  pairs.foldl (fun m pair => insert m pair.1 pair.2) m

/-- The map that a list of pairs builds, later ones winning. -/
def ofList (pairs : List (String × α)) : List (String × α) :=
  insertAll [] pairs

/-! ## What insertion does to the view by keys -/

theorem get?_insert_self (m : List (String × α)) (key : String) (value : α) :
    get? (insert m key value) key = some value := by
  induction m with
  | nil => simp [insert, get?]
  | cons pair rest ih =>
    obtain ⟨k, v⟩ := pair
    by_cases h : k = key
    · simp [insert, h, get?]
    · have hne : (key == k) = false := by simpa using fun hk : key = k => h hk.symm
      simp only [get?] at ih
      simp [insert, h, get?, List.lookup_cons, hne, ih]

theorem get?_insert_of_ne {m : List (String × α)} {key other : String} (value : α)
    (h : other ≠ key) : get? (insert m key value) other = get? m other := by
  induction m with
  | nil =>
    have hne : (other == key) = false := by simpa using h
    simp [insert, get?, List.lookup_cons, hne]
  | cons pair rest ih =>
    obtain ⟨k, v⟩ := pair
    simp only [get?] at ih
    by_cases hk : k = key
    · subst hk
      have hne : (other == k) = false := by simpa using h
      simp [insert, get?, List.lookup_cons, hne]
    · simp only [insert, hk, if_false, get?, List.lookup_cons]
      cases other == k
      · exact ih
      · rfl

/-- A key that is there keeps its place; a new one goes to the end. -/
theorem keys_insert (m : List (String × α)) (key : String) (value : α) :
    keys (insert m key value) = if key ∈ keys m then keys m else keys m ++ [key] := by
  induction m with
  | nil => simp [insert, keys]
  | cons pair rest ih =>
    obtain ⟨k, v⟩ := pair
    by_cases h : k = key
    · simp [insert, keys, h]
    · have hne : key ≠ k := fun hk => h hk.symm
      simp only [keys] at ih
      by_cases hmem : key ∈ rest.map Prod.fst <;> simp_all [insert, keys]

end DataLisp.OrderedMap
