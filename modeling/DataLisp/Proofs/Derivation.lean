/-
The grammar as a relation.

`Derives` says of a row of tokens that it is a value, an entry, a row of entries or the
items of an array, and which tree it stands for. It is the grammar of the notation rule by
rule, and it knows nothing of the parser: no token is skipped, nothing is reported, and
nesting is not limited. How deep a tree nests is a number of its own (`Tree.depth`), and so
is what is left of it when everything below a depth is cut off (`Tree.prune`).

Three facts about derived rows carry the proofs about the parser. A derived row says by its
first token that it is one (`Derives.value_starts`). It is balanced, every token that opens
something having one that closes it (`Derives.balanced`), so counting brackets is enough to
step over it. And the openings that lie too deep in it can be listed from the tokens alone
(`overflows`): there are none exactly when the tree is shallow enough.
-/
import DataLisp.Proofs.Spelling
import DataLisp.Tree.Grammar

set_option autoImplicit false

namespace DataLisp

/-! ## Induction -/

/-- Induction over a tree: the values of the entries of a form and the items of an array come
first. -/
@[elab_as_elim]
theorem Tree.induction {motive : Tree → Prop}
    (group : ∀ form, (∀ e ∈ form.entries, motive e.value) → motive (.group form))
    (array : ∀ items, (∀ tree ∈ items, motive tree) → motive (.array items))
    (expression : ∀ form, (∀ e ∈ form.entries, motive e.value) → motive (.expression form))
    (integer : ∀ i, motive (.integer i)) (float : ∀ x, motive (.float x))
    (string : ∀ s, motive (.string s)) (bool : ∀ b, motive (.bool b)) (null : motive .null)
    (invalid : motive .invalid) (tree : Tree) : motive tree :=
  @Tree.rec motive (fun form => ∀ e ∈ form.entries, motive e.value) (fun e => motive e.value)
    (fun items => ∀ tree ∈ items, motive tree) (fun es => ∀ e ∈ es, motive e.value)
    group array expression integer float string bool null invalid
    (fun _ _ _ hes => hes) (fun _ _ _ htree => htree)
    (by simp) (fun _ _ htree hrest => List.forall_mem_cons.mpr ⟨htree, hrest⟩)
    (by simp) (fun _ _ he hrest => List.forall_mem_cons.mpr ⟨he, hrest⟩) tree

/-! ## Depth -/

mutual

/-- How many groups, arrays and expressions lie inside each other in a tree. -/
def Tree.depth : Tree → Nat
  | .group form => form.depth + 1
  | .array items => Trees.depth items + 1
  | .expression form => form.depth + 1
  | .integer _ | .float _ | .string _ | .bool _ | .null | .invalid => 0

/-- The same for what lies inside a form, which does not count itself. -/
def Form.depth : Form → Nat
  | ⟨_, entries, _⟩ => Entries.depth entries

/-- The same for a row of entries. -/
def Entries.depth : List Entry → Nat
  | [] => 0
  | ⟨_, tree, _⟩ :: rest => max tree.depth (Entries.depth rest)

/-- The same for the items of an array. -/
def Trees.depth : List Tree → Nat
  | [] => 0
  | tree :: rest => max tree.depth (Trees.depth rest)

end

mutual

/-- A tree cut off below a number of levels: what would be one level more is invalid. -/
def Tree.prune (levels : Nat) : Tree → Tree
  | .group form =>
    match levels with
    | 0 => .invalid
    | levels + 1 => .group (form.prune levels)
  | .array items =>
    match levels with
    | 0 => .invalid
    | levels + 1 => .array (Trees.prune levels items)
  | .expression form =>
    match levels with
    | 0 => .invalid
    | levels + 1 => .expression (form.prune levels)
  | .integer i => .integer i
  | .float x => .float x
  | .string s => .string s
  | .bool b => .bool b
  | .null => .null
  | .invalid => .invalid

/-- A form whose entries are cut off; their keys and positions stay. -/
def Form.prune (levels : Nat) : Form → Form
  | ⟨name, entries, p⟩ => ⟨name, Entries.prune levels entries, p⟩

/-- Entries that are cut off. -/
def Entries.prune (levels : Nat) : List Entry → List Entry
  | [] => []
  | ⟨key, tree, p⟩ :: rest => ⟨key, tree.prune levels, p⟩ :: Entries.prune levels rest

/-- Items that are cut off. -/
def Trees.prune (levels : Nat) : List Tree → List Tree
  | [] => []
  | tree :: rest => tree.prune levels :: Trees.prune levels rest

end

mutual

/-- A tree that is shallow enough is not cut. -/
theorem Tree.prune_eq_self (levels : Nat) :
    ∀ tree : Tree, tree.depth ≤ levels → tree.prune levels = tree
  | .group form, h => by
    cases levels with
    | zero => exact absurd h (Nat.not_succ_le_zero _)
    | succ levels => rw [Tree.prune, Form.prune_eq_self levels form (Nat.le_of_succ_le_succ h)]
  | .array items, h => by
    cases levels with
    | zero => exact absurd h (Nat.not_succ_le_zero _)
    | succ levels => rw [Tree.prune, Trees.prune_eq_self levels items (Nat.le_of_succ_le_succ h)]
  | .expression form, h => by
    cases levels with
    | zero => exact absurd h (Nat.not_succ_le_zero _)
    | succ levels => rw [Tree.prune, Form.prune_eq_self levels form (Nat.le_of_succ_le_succ h)]
  | .integer _, _ | .float _, _ | .string _, _ | .bool _, _ | .null, _ | .invalid, _ => rfl

theorem Form.prune_eq_self (levels : Nat) :
    ∀ form : Form, form.depth ≤ levels → form.prune levels = form
  | ⟨name, entries, p⟩, h => by rw [Form.prune, Entries.prune_eq_self levels entries h]

theorem Entries.prune_eq_self (levels : Nat) :
    ∀ entries : List Entry, Entries.depth entries ≤ levels → Entries.prune levels entries = entries
  | [], _ => rfl
  | ⟨key, tree, p⟩ :: rest, h => by
    have hboth := Nat.max_le.mp h
    rw [Entries.prune, Tree.prune_eq_self levels tree hboth.1,
      Entries.prune_eq_self levels rest hboth.2]

theorem Trees.prune_eq_self (levels : Nat) :
    ∀ trees : List Tree, Trees.depth trees ≤ levels → Trees.prune levels trees = trees
  | [], _ => rfl
  | tree :: rest, h => by
    have hboth := Nat.max_le.mp h
    rw [Trees.prune, Tree.prune_eq_self levels tree hboth.1,
      Trees.prune_eq_self levels rest hboth.2]

end

/-- Forms that are shallow enough are not cut off. -/
theorem Form.map_prune_eq_self {levels : Nat} {forms : List Form}
    (h : ∀ form ∈ forms, form.depth ≤ levels) : forms.map (Form.prune levels) = forms :=
  (List.map_congr_left fun form hform => prune_eq_self levels form (h form hform)).trans
    (List.map_id forms)

/-! ## Clean trees -/

mutual

/-- Nothing invalid in a tree, and no form without a name. -/
def Tree.Clean : Tree → Prop
  | .group form => form.Clean
  | .array items => Trees.Clean items
  | .expression form => form.Clean
  | .integer _ | .float _ | .string _ | .bool _ | .null => True
  | .invalid => False

/-- The same for a form, whose own name counts. -/
def Form.Clean : Form → Prop
  | ⟨name, entries, _⟩ => name ≠ "" ∧ Entries.Clean entries

/-- The same for a row of entries. -/
def Entries.Clean : List Entry → Prop
  | [] => True
  | ⟨_, tree, _⟩ :: rest => tree.Clean ∧ Entries.Clean rest

/-- The same for the items of an array. -/
def Trees.Clean : List Tree → Prop
  | [] => True
  | tree :: rest => tree.Clean ∧ Trees.Clean rest

end

namespace Tree

/-! ## The rules -/

/-- What the grammar says of a row of tokens: which part of a tree it stands for. -/
inductive Phrase where
  | value (tree : Tree)
  | entry (e : Entry)
  | entries (es : List Entry)
  | items (trees : List Tree)

/-- An optional comma. -/
inductive Comma : List PlacedToken → Prop where
  | absent : Comma []
  | present (p : Position) : Comma [⟨.comma, p⟩]

/-- The tokens that are keys: identifiers, and integers without a sign. -/
inductive IsKey : Token → String → Prop where
  | word (name : List Char) : IsKey (.identifier name) (String.ofList name)
  | number {n : Numeral} (h : n.isUnsigned = true) : IsKey (.integer n) n.text

/-- The tokens that are values by themselves. An integer has to fit into 64 bits. -/
inductive IsScalar : Token → Tree → Prop where
  | integer {n : Numeral} {i : Int64} (h : n.toInt64? = some i) : IsScalar (.integer n) (.integer i)
  | float (n : Numeral) : IsScalar (.float n) (.float n.toBinary64)
  | string (content : List Char) : IsScalar (.string content) (.string (String.ofList content))
  | bool (b : Bool) : IsScalar (.bool b) (.bool b)
  | null : IsScalar .null .null

/-- **The grammar.** A row of tokens stands for a part of a tree. -/
inductive Derives : Phrase → List PlacedToken → Prop where
  | scalar {t : Token} {tree : Tree} (p : Position) (h : IsScalar t tree) :
      Derives (.value tree) [⟨t, p⟩]
  | group {es : List Entry} {sep ts : List PlacedToken} (name : List Char) (p q r : Position)
      (hsep : Comma sep) (hes : Derives (.entries es) ts) :
      Derives (.value (.group ⟨String.ofList name, es, p⟩))
        (⟨.openParen, p⟩ :: ⟨.identifier name, q⟩ :: (sep ++ (ts ++ [⟨.closeParen, r⟩])))
  | array {trees : List Tree} {ts : List PlacedToken} (p r : Position)
      (hitems : Derives (.items trees) ts) :
      Derives (.value (.array trees)) (⟨.openBracket, p⟩ :: (ts ++ [⟨.closeBracket, r⟩]))
  | expression {es : List Entry} {ts : List PlacedToken} (name : List Char) (p q r : Position)
      (hes : Derives (.entries es) ts) :
      Derives (.value (.expression ⟨String.ofList name, es, p⟩))
        (⟨.openExpression, p⟩ :: ⟨.identifier name, q⟩ :: (ts ++ [⟨.closeParen, r⟩]))
  | plain {tree : Tree} {t : PlacedToken} {ts : List PlacedToken}
      (h : Derives (.value tree) (t :: ts)) :
      Derives (.entry ⟨none, tree, t.position⟩) (t :: ts)
  | keyed {t : Token} {key : String} {tree : Tree} {ts : List PlacedToken} (p q : Position)
      (hkey : IsKey t key) (h : Derives (.value tree) ts) :
      Derives (.entry ⟨some key, tree, p⟩) (⟨.colon, p⟩ :: ⟨t, q⟩ :: ts)
  | noEntries : Derives (.entries []) []
  | moreEntries {e : Entry} {es : List Entry} {ts sep us : List PlacedToken}
      (he : Derives (.entry e) ts) (hsep : Comma sep) (hes : Derives (.entries es) us) :
      Derives (.entries (e :: es)) (ts ++ (sep ++ us))
  | noItems : Derives (.items []) []
  | moreItems {tree : Tree} {trees : List Tree} {ts sep us : List PlacedToken}
      (h : Derives (.value tree) ts) (hsep : Comma sep) (hitems : Derives (.items trees) us) :
      Derives (.items (tree :: trees)) (ts ++ (sep ++ us))

/-- A text is a row of groups. -/
inductive DerivesText : List Form → List PlacedToken → Prop where
  | done : DerivesText [] []
  | more {form : Form} {forms : List Form} {ts us : List PlacedToken}
      (hform : Derives (.value (.group form)) ts) (hforms : DerivesText forms us) :
      DerivesText (form :: forms) (ts ++ us)

/-! ## Where a phrase starts -/

/-- A scalar is no bracket, and an entry may start with it. -/
theorem IsScalar.token {t : Token} {tree : Tree} (h : IsScalar t tree) :
    opens t = false ∧ closes t = false ∧ startsEntry t = true ∧ t ≠ .colon := by
  cases h <;> exact ⟨rfl, rfl, rfl, by simp⟩

theorem IsKey.token {t : Token} {key : String} (h : IsKey t key) :
    opens t = false ∧ closes t = false := by
  cases h <;> exact ⟨rfl, rfl⟩

/-- A value has a first token, and that one announces an entry without a key. -/
theorem Derives.value_starts {tree : Tree} {ts : List PlacedToken} (h : Derives (.value tree) ts) :
    ∃ t us, ts = t :: us ∧ startsEntry t.token = true ∧ t.token ≠ .colon := by
  cases h with
  | scalar p hscalar => exact ⟨_, _, rfl, hscalar.token.2.2.1, hscalar.token.2.2.2⟩
  | group name p q r hsep hes => exact ⟨_, _, rfl, rfl, by simp⟩
  | array p r hitems => exact ⟨_, _, rfl, rfl, by simp⟩
  | expression name p q r hes => exact ⟨_, _, rfl, rfl, by simp⟩

/-- An entry starts with a colon or with a value, so it is never empty. -/
theorem Derives.entry_starts {e : Entry} {ts : List PlacedToken} (h : Derives (.entry e) ts) :
    ∃ t us, ts = t :: us ∧ startsEntry t.token = true := by
  cases h with
  | plain h =>
    obtain ⟨t, us, hts, hstart, -⟩ := h.value_starts
    exact ⟨t, us, hts, hstart⟩
  | keyed p q hkey h => exact ⟨_, _, rfl, rfl⟩

/-! ## Brackets -/

/-- Rows in which every bracket that is opened is closed. -/
inductive Balanced : List PlacedToken → Prop where
  | nil : Balanced []
  | other {t : PlacedToken} {ts : List PlacedToken} (hopens : opens t.token = false)
      (hcloses : closes t.token = false) (h : Balanced ts) : Balanced (t :: ts)
  | nested {o c : PlacedToken} {inner ts : List PlacedToken} (ho : opens o.token = true)
      (hc : closes c.token = true) (hinner : Balanced inner) (h : Balanced ts) :
      Balanced (o :: (inner ++ c :: ts))

theorem opens_of_closes {t : Token} (h : closes t = true) : opens t = false := by
  cases t <;> first | rfl | cases h

/-- Balanced rows may stand one after another. -/
theorem Balanced.append {ts us : List PlacedToken} (hts : Balanced ts) (hus : Balanced us) :
    Balanced (ts ++ us) := by
  induction hts with
  | nil => exact hus
  | other hopens hcloses _ ih => exact .other hopens hcloses ih
  | nested ho hc hinner _ _ ih =>
    rw [List.cons_append, List.append_assoc, List.cons_append]
    exact .nested ho hc hinner ih

theorem Comma.balanced {sep : List PlacedToken} (h : Comma sep) : Balanced sep := by
  cases h with
  | absent => exact .nil
  | present p => exact .other rfl rfl .nil

/-- **Whatever the grammar derives is balanced.** -/
theorem Derives.balanced {phrase : Phrase} {ts : List PlacedToken} (h : Derives phrase ts) :
    Balanced ts := by
  induction h with
  | scalar p h => exact .other h.token.1 h.token.2.1 .nil
  | group name p q r hsep _ ih =>
    rw [← List.append_assoc, ← List.cons_append]
    exact .nested rfl rfl (.other rfl rfl (hsep.balanced.append ih)) .nil
  | array p r _ ih => exact .nested rfl rfl ih .nil
  | expression name p q r _ ih =>
    rw [← List.cons_append]
    exact .nested rfl rfl (.other rfl rfl ih) .nil
  | plain _ ih => exact ih
  | keyed p q hkey _ ih => exact .other rfl rfl (.other hkey.token.1 hkey.token.2 ih)
  | noEntries => exact .nil
  | moreEntries _ hsep _ ihe ihes => exact ihe.append (hsep.balanced.append ihes)
  | noItems => exact .nil
  | moreItems _ hsep _ ih ihs => exact ih.append (hsep.balanced.append ihs)

/-- A balanced row is dropped as a whole, whatever is open around it. -/
theorem Balanced.dropBalanced {ts : List PlacedToken} (h : Balanced ts) (depth : Nat)
    (rest : List PlacedToken) :
    dropBalanced (depth + 1) (ts ++ rest) = dropBalanced (depth + 1) rest := by
  induction h generalizing depth rest with
  | nil => rfl
  | other hopens hcloses _ ih =>
    rw [List.cons_append, Tree.dropBalanced, if_neg (by simp [hopens]), if_neg (by simp [hcloses]),
      ih]
  | nested ho hc _ _ ihinner ih =>
    rw [List.cons_append, List.append_assoc, Tree.dropBalanced, if_pos ho, ihinner,
      List.cons_append, Tree.dropBalanced, if_neg (by simp [opens_of_closes hc]), if_pos hc,
      if_neg (by omega), Nat.add_sub_cancel, ih]

/-- Dropping passes over a balanced row in brackets, and over nothing else. -/
theorem dropBalanced_nested {o c : PlacedToken} {inner : List PlacedToken}
    (ho : opens o.token = true) (hc : closes c.token = true) (hinner : Balanced inner)
    (rest : List PlacedToken) : dropBalanced 0 (o :: (inner ++ c :: rest)) = rest := by
  rw [dropBalanced, if_pos ho, hinner.dropBalanced, dropBalanced,
    if_neg (by simp [opens_of_closes hc]), if_pos hc, if_pos (Nat.le_refl _)]

/-! ## Openings that lie too deep -/

/-- The positions of the tokens that open something inside `limit` others, in order; `depth`
counts what is open around the row. -/
def overflows (limit : Nat) : Nat → List PlacedToken → List Position
  | _, [] => []
  | depth, t :: rest =>
    if opens t.token then
      (if depth = limit then [t.position] else []) ++ overflows limit (depth + 1) rest
    else if closes t.token then overflows limit (depth - 1) rest
    else overflows limit depth rest

section Overflows

variable {t o c : PlacedToken} {ts inner : List PlacedToken} {limit depth : Nat}

theorem overflows_other (hopens : opens t.token = false) (hcloses : closes t.token = false) :
    overflows limit depth (t :: ts) = overflows limit depth ts := by
  rw [overflows, if_neg (by simp [hopens]), if_neg (by simp [hcloses])]

/-- An opening token lies too deep exactly at the limit, and what follows lies deeper. -/
theorem overflows_opens (ho : opens o.token = true) :
    overflows limit depth (o :: ts) =
      (if depth = limit then [o.position] else []) ++ overflows limit (depth + 1) ts := by
  rw [overflows, if_pos ho]

/-- A closing token leads one level back. -/
theorem overflows_closes (hc : closes c.token = true) :
    overflows limit (depth + 1) (c :: ts) = overflows limit depth ts := by
  rw [overflows, if_neg (by simp [opens_of_closes hc]), if_pos hc, Nat.add_sub_cancel]

/-- After a balanced row the count is what it was before. -/
theorem Balanced.overflows_append (h : Balanced ts) (limit depth : Nat) (rest : List PlacedToken) :
    overflows limit depth (ts ++ rest) =
      overflows limit depth ts ++ overflows limit depth rest := by
  induction h generalizing depth rest with
  | nil => rfl
  | other hopens hcloses _ ih =>
    rw [List.cons_append, overflows_other hopens hcloses, overflows_other hopens hcloses, ih]
  | @nested o c inner ts ho hc _ _ ihinner ih =>
    rw [List.cons_append, List.append_assoc, List.cons_append, overflows_opens ho,
      overflows_opens ho, ihinner _ (c :: (ts ++ rest)), ihinner _ (c :: ts),
      overflows_closes hc, overflows_closes hc, ih]
    simp only [List.append_assoc]

/-- Inside something that lies too deep itself nothing is listed any more. -/
theorem Balanced.overflows_of_lt (h : Balanced ts) (hlt : limit < depth) :
    overflows limit depth ts = [] := by
  induction h generalizing depth with
  | nil => rfl
  | other hopens hcloses _ ih => rw [overflows_other hopens hcloses, ih hlt]
  -- the inside is deeper still
  | nested ho hc hinner _ ihinner ih =>
    rw [overflows_opens ho, if_neg (by omega), hinner.overflows_append, ihinner (by omega),
      overflows_closes hc, ih hlt]
    rfl

/-- What a bracketed row contributes when there are levels left. -/
theorem overflows_nested (ho : opens o.token = true) (hc : closes c.token = true)
    (hinner : Balanced inner) (levels : Nat) :
    overflows (depth + (levels + 1)) depth (o :: (inner ++ [c])) =
      overflows ((depth + 1) + levels) (depth + 1) inner := by
  rw [overflows_opens ho, if_neg (by omega), hinner.overflows_append, overflows_closes hc,
    show depth + (levels + 1) = (depth + 1) + levels by omega]
  simp only [overflows, List.nil_append, List.append_nil]

/-- What it contributes when there are none. -/
theorem overflows_nested_zero (ho : opens o.token = true) (hc : closes c.token = true)
    (hinner : Balanced inner) :
    overflows (depth + 0) depth (o :: (inner ++ [c])) = [o.position] := by
  rw [overflows_opens ho, if_pos (Nat.add_zero depth).symm, hinner.overflows_append,
    hinner.overflows_of_lt (by omega),
    overflows_closes hc]
  rfl

/-- So a bracketed row is as deep as its inside and one level more. -/
theorem overflows_nested_eq_nil_iff (ho : opens o.token = true) (hc : closes c.token = true)
    (hinner : Balanced inner) {n : Nat}
    (h : ∀ levels depth, overflows (depth + levels) depth inner = [] ↔ n ≤ levels)
    (levels depth : Nat) :
    overflows (depth + levels) depth (o :: (inner ++ [c])) = [] ↔ n + 1 ≤ levels := by
  cases levels with
  | zero =>
    rw [overflows_nested_zero ho hc hinner]
    exact ⟨fun h => absurd h (List.cons_ne_nil _ _), fun h => absurd h (Nat.not_succ_le_zero _)⟩
  | succ levels =>
    rw [overflows_nested ho hc hinner, h]
    exact (Nat.add_le_add_iff_right).symm

end Overflows

/-- How deep a part of a tree nests. -/
def Phrase.depth : Phrase → Nat
  | value tree => tree.depth
  | entry e => e.value.depth
  | entries es => Entries.depth es
  | items trees => Trees.depth trees

theorem Comma.overflows {sep : List PlacedToken} (h : Comma sep) (limit depth : Nat) :
    Tree.overflows limit depth sep = [] := by
  cases h with
  | absent => rfl
  | present p => rfl

/-- **Nothing lies too deep in a row exactly when its tree is shallow enough.** -/
theorem Derives.overflows_eq_nil_iff {phrase : Phrase} {ts : List PlacedToken}
    (h : Derives phrase ts) (levels depth : Nat) :
    overflows (depth + levels) depth ts = [] ↔ phrase.depth ≤ levels := by
  -- `depth` is what is open around the row, so it grows with every level that is entered
  induction h generalizing levels depth with
  | scalar p h =>
    rw [overflows_other h.token.1 h.token.2.1]
    cases h <;> exact ⟨fun _ => Nat.zero_le _, fun _ => rfl⟩
  | group name p q r hsep hes ih =>
    have hinner : Balanced (⟨.identifier name, q⟩ :: _) :=
      .other rfl rfl (hsep.balanced.append hes.balanced)
    rw [← List.append_assoc, ← List.cons_append]
    refine overflows_nested_eq_nil_iff rfl rfl hinner ?_ levels depth
    -- the name and the comma open nothing
    intro levels depth
    rw [overflows_other rfl rfl, hsep.balanced.overflows_append, hsep.overflows, List.nil_append]
    exact ih levels depth
  | array p r hitems ih =>
    exact overflows_nested_eq_nil_iff rfl rfl hitems.balanced ih levels depth
  | expression name p q r hes ih =>
    have hinner : Balanced (⟨.identifier name, q⟩ :: _) := .other rfl rfl hes.balanced
    rw [← List.cons_append]
    refine overflows_nested_eq_nil_iff rfl rfl hinner ?_ levels depth
    intro levels depth
    rw [overflows_other rfl rfl]
    exact ih levels depth
  | plain _ ih => exact ih levels depth
  | keyed p q hkey _ ih =>
    rw [overflows_other rfl rfl, overflows_other hkey.token.1 hkey.token.2]
    exact ih levels depth
  | noEntries => exact ⟨fun _ => Nat.zero_le _, fun _ => rfl⟩
  | @moreEntries e es ts sep us he hsep _ ihe ihes =>
    rw [he.balanced.overflows_append, hsep.balanced.overflows_append, hsep.overflows,
      List.nil_append, List.append_eq_nil_iff, ihe, ihes]
    obtain ⟨key, tree, p⟩ := e
    exact (Nat.max_le).symm
  | noItems => exact ⟨fun _ => Nat.zero_le _, fun _ => rfl⟩
  | moreItems h hsep _ ih ihs =>
    rw [h.balanced.overflows_append, hsep.balanced.overflows_append, hsep.overflows,
      List.nil_append, List.append_eq_nil_iff, ih, ihs]
    exact (Nat.max_le).symm

/-! ## Names -/

/-- A word has a character. -/
theorem ofList_ne_empty {name : List Char} (h : (Token.identifier name).Proper) :
    String.ofList name ≠ "" := by
  intro hempty
  have hname : name = [] := by
    rw [← String.toList_ofList (l := name), hempty]
    rfl
  rw [hname] at h
  cases h

/-- What it is for a part of a tree to be clean. -/
def Phrase.Clean : Phrase → Prop
  | value tree => tree.Clean
  | entry e => e.value.Clean
  | entries es => Entries.Clean es
  | items trees => Trees.Clean trees

/-- **A derived tree is clean**: the grammar has no rule for an invalid value, and the names
of forms are words. -/
theorem Derives.clean {phrase : Phrase} {ts : List PlacedToken} (h : Derives phrase ts)
    (hproper : ∀ t ∈ ts, t.token.Proper) : phrase.Clean := by
  induction h with
  | scalar p h => cases h <;> trivial
  | group name p q r hsep hes ih =>
    refine ⟨ofList_ne_empty (hproper ⟨.identifier name, q⟩ (by simp)), ih ?_⟩
    intro t ht
    exact hproper t (by simp [ht])
  | array p r hitems ih =>
    apply ih
    intro t ht
    exact hproper t (by simp [ht])
  | expression name p q r hes ih =>
    refine ⟨ofList_ne_empty (hproper ⟨.identifier name, q⟩ (by simp)), ih ?_⟩
    intro t ht
    exact hproper t (by simp [ht])
  | plain _ ih => exact ih hproper
  | keyed p q hkey _ ih =>
    apply ih
    intro t ht
    exact hproper t (by simp [ht])
  | noEntries => trivial
  | @moreEntries e es ts sep us he hsep _ ihe ihes =>
    obtain ⟨key, tree, p⟩ := e
    refine ⟨ihe ?_, ihes ?_⟩
    · intro t ht
      exact hproper t (by simp [ht])
    · intro t ht
      exact hproper t (by simp [ht])
  | noItems => trivial
  | moreItems _ hsep _ ih ihs =>
    refine ⟨ih ?_, ihs ?_⟩
    · intro t ht
      exact hproper t (by simp [ht])
    · intro t ht
      exact hproper t (by simp [ht])

/-- The forms of a derived text are clean, if its tokens are as the scanner makes them. -/
theorem DerivesText.clean {forms : List Form} {ts : List PlacedToken} (h : DerivesText forms ts)
    (hproper : ∀ t ∈ ts, t.token.Proper) : ∀ form ∈ forms, form.Clean := by
  induction h with
  | done =>
    intro form hform
    cases hform
  | more hform _ ih =>
    refine List.forall_mem_cons.mpr ⟨hform.clean ?_, ih ?_⟩
    · intro t ht
      exact hproper t (List.mem_append_left _ ht)
    · intro t ht
      exact hproper t (List.mem_append_right _ ht)

end Tree

end DataLisp
