/-
What the limit of nesting does to a text.

The grammar knows no limit of nesting, the parser has one. On a text that the grammar derives, the
limit cuts off what lies too deep, and it does nothing else (`Parsed.prunes_too_deep`). Three things
are said about that. The forms that are parsed are those of the derivation with an invalid value in
place of every group, array and expression on the first level that is too deep; keys and positions
of entries stay. The errors are one for each of these, at the token that opens it. And what stands
around them is parsed as if each had been a single token: with a `null` in place of every row that
is cut off, the text is derived without anything too deep, and its forms are the parsed ones with
null for what is invalid.

An array has no position of its own in a tree, so which token opens it has to be said otherwise.
The tokens of a derived row that open something are listed in order, and so are the values of its
tree that nest (`Tree.nested`); these two lists go together one by one, each value with the token
that opens it (`Derives.opened`), and then the level of a value tells whether its token is reported.
-/
import DataLisp.Proofs.Layout
import DataLisp.Proofs.Soundness

set_option autoImplicit false

namespace DataLisp

/-! ## Values that nest -/

mutual

/-- The groups, arrays and expressions of a tree in the order of the text, with their levels; the
tree itself is on the given one. -/
def Tree.nested (level : Nat) : Tree → List (Nat × Tree)
  | .group form => (level, .group form) :: form.nested (level + 1)
  | .array items => (level, .array items) :: Trees.nested (level + 1) items
  | .expression form => (level, .expression form) :: form.nested (level + 1)
  | .integer _ | .float _ | .string _ | .bool _ | .null | .invalid => []

/-- The same for what lies inside a form. -/
def Form.nested (level : Nat) : Form → List (Nat × Tree)
  | ⟨_, entries, _⟩ => Entries.nested level entries

/-- The same for a row of entries. -/
def Entries.nested (level : Nat) : List Entry → List (Nat × Tree)
  | [] => []
  | ⟨_, tree, _⟩ :: rest => tree.nested level ++ Entries.nested level rest

/-- The same for the items of an array. -/
def Trees.nested (level : Nat) : List Tree → List (Nat × Tree)
  | [] => []
  | tree :: rest => tree.nested level ++ Trees.nested level rest

end

/-- Whether a token opens a value. Groups and expressions have the position of that token. -/
def Tree.OpenedBy : Tree → PlacedToken → Prop
  | .group form, t => t = ⟨.openParen, form.position⟩
  | .array _, t => t.token = .openBracket
  | .expression form, t => t = ⟨.openExpression, form.position⟩
  | .integer _, _ | .float _, _ | .string _, _ | .bool _, _ | .null, _ | .invalid, _ => False

/-! ## Null for invalid values -/

mutual

/-- A tree with null in place of everything invalid. -/
def Tree.repaired : Tree → Tree
  | .group form => .group form.repaired
  | .array items => .array (Trees.repaired items)
  | .expression form => .expression form.repaired
  | .integer i => .integer i
  | .float x => .float x
  | .string s => .string s
  | .bool b => .bool b
  | .null => .null
  | .invalid => .null

/-- A form with null in place of everything invalid in its entries. -/
def Form.repaired : Form → Form
  | ⟨name, entries, p⟩ => ⟨name, Entries.repaired entries, p⟩

/-- The same for a row of entries, whose keys and positions stay. -/
def Entries.repaired : List Entry → List Entry
  | [] => []
  | ⟨key, tree, p⟩ :: rest => ⟨key, tree.repaired, p⟩ :: Entries.repaired rest

/-- The same for the items of an array. -/
def Trees.repaired : List Tree → List Tree
  | [] => []
  | tree :: rest => tree.repaired :: Trees.repaired rest

end

mutual

/-- What is left of a tree below a number of levels nests no deeper than that. -/
theorem Tree.depth_repaired_prune (levels : Nat) :
    ∀ tree : Tree, (tree.prune levels).repaired.depth ≤ levels
  | .group form => by
    cases levels with
    | zero => exact Nat.le_refl 0
    | succ levels => exact Nat.succ_le_succ (Form.depth_repaired_prune levels form)
  | .array items => by
    cases levels with
    | zero => exact Nat.le_refl 0
    | succ levels => exact Nat.succ_le_succ (Trees.depth_repaired_prune levels items)
  | .expression form => by
    cases levels with
    | zero => exact Nat.le_refl 0
    | succ levels => exact Nat.succ_le_succ (Form.depth_repaired_prune levels form)
  | .integer _ | .float _ | .string _ | .bool _ | .null | .invalid => Nat.zero_le levels

theorem Form.depth_repaired_prune (levels : Nat) :
    ∀ form : Form, (form.prune levels).repaired.depth ≤ levels
  | ⟨_, entries, _⟩ => Entries.depth_repaired_prune levels entries

theorem Entries.depth_repaired_prune (levels : Nat) :
    ∀ entries : List Entry, Entries.depth (Entries.repaired (Entries.prune levels entries)) ≤ levels
  | [] => Nat.zero_le levels
  | ⟨_, tree, _⟩ :: rest => Nat.max_le.mpr
    ⟨Tree.depth_repaired_prune levels tree, Entries.depth_repaired_prune levels rest⟩

theorem Trees.depth_repaired_prune (levels : Nat) :
    ∀ trees : List Tree, Trees.depth (Trees.repaired (Trees.prune levels trees)) ≤ levels
  | [] => Nat.zero_le levels
  | tree :: rest => Nat.max_le.mpr
    ⟨Tree.depth_repaired_prune levels tree, Trees.depth_repaired_prune levels rest⟩

end

namespace Tree

/-! ## Which token opens which value -/

/-- The values of a part of a tree that nest. -/
def Phrase.nested (level : Nat) : Phrase → List (Nat × Tree)
  | value tree => tree.nested level
  | entry e => e.value.nested level
  | entries es => Entries.nested level es
  | items trees => Trees.nested level trees

/-- A pairing of the values that nest with the tokens of a row that open something, in the order of
both; what lies too deep in the row is told by the levels of the values. -/
structure Opened (level : Nat) (nested : List (Nat × Tree)) (ts : List PlacedToken)
    (pairs : List ((Nat × Tree) × PlacedToken)) : Prop where
  values : pairs.map Prod.fst = nested
  tokens : pairs.map Prod.snd = ts.filter fun t => opens t.token
  opened : ∀ pair ∈ pairs, pair.1.2.OpenedBy pair.2
  overflows : ∀ limit, Tree.overflows limit level ts =
    (pairs.filter fun pair => pair.1.1 = limit).map fun pair => pair.2.position

section Opened

variable {level : Nat} {vs vs' : List (Nat × Tree)} {ts us inner : List PlacedToken}
  {pairs pairs' : List ((Nat × Tree) × PlacedToken)}

theorem Opened.append (h : Opened level vs ts pairs) (h' : Opened level vs' us pairs')
    (hts : Balanced ts) : Opened level (vs ++ vs') (ts ++ us) (pairs ++ pairs') where
  values := by rw [List.map_append, h.values, h'.values]
  tokens := by rw [List.map_append, List.filter_append, h.tokens, h'.tokens]
  opened := List.forall_mem_append.mpr ⟨h.opened, h'.opened⟩
  overflows limit := by
    rw [hts.overflows_append, h.overflows, h'.overflows, List.filter_append, List.map_append]

/-- A token that neither opens nor closes anything makes no difference. -/
theorem Opened.other {t : PlacedToken} (hopens : opens t.token = false)
    (hcloses : closes t.token = false) (h : Opened level vs ts pairs) :
    Opened level vs (t :: ts) pairs where
  values := h.values
  tokens := by rw [List.filter_cons_of_neg (by simp [hopens]), h.tokens]
  opened := h.opened
  overflows limit := by rw [overflows_other hopens hcloses, h.overflows]

theorem Opened.nil : Opened level [] [] [] :=
  ⟨rfl, rfl, by simp, fun _ => rfl⟩

theorem Opened.comma {sep : List PlacedToken} (hsep : Comma sep)
    (h : Opened level vs ts pairs) : Opened level vs (sep ++ ts) pairs := by
  cases hsep with
  | absent => exact h
  | present p => exact h.other rfl rfl

/-- A value in brackets comes before the values inside it, and so does the token that opens it. -/
theorem Opened.nested {tree : Tree} {o c : PlacedToken} (ho : opens o.token = true)
    (hc : closes c.token = true) (hinner : Balanced inner) (hopened : tree.OpenedBy o)
    (h : Opened (level + 1) vs inner pairs) :
    Opened level ((level, tree) :: vs) (o :: (inner ++ [c])) (((level, tree), o) :: pairs) where
  values := by rw [List.map_cons, h.values]
  tokens := by
    have hnone : [c].filter (fun t => opens t.token) = [] :=
      List.filter_cons_of_neg (by simp [opens_of_closes hc])
    rw [List.map_cons, List.filter_cons_of_pos (p := fun t : PlacedToken => opens t.token) ho,
      List.filter_append, hnone, List.append_nil, h.tokens]
  opened := List.forall_mem_cons.mpr ⟨hopened, h.opened⟩
  overflows limit := by
    rw [overflows_opens ho, hinner.overflows_append, overflows_closes hc, h.overflows]
    by_cases hlevel : level = limit
    · rw [if_pos hlevel, List.filter_cons_of_pos (by simpa using hlevel)]
      simp only [Tree.overflows, List.append_nil, List.singleton_append, List.map_cons]
    · rw [if_neg hlevel, List.filter_cons_of_neg (by simpa using hlevel)]
      simp only [Tree.overflows, List.append_nil, List.nil_append]

end Opened

/-- **The values that nest go with the tokens that open them**, one by one and in order. -/
theorem Derives.opened {phrase : Phrase} {ts : List PlacedToken} (h : Derives phrase ts)
    (level : Nat) : ∃ pairs, Opened level (phrase.nested level) ts pairs := by
  induction h generalizing level with
  | scalar p h =>
    refine ⟨[], ?_⟩
    have hrow : Opened level [] [⟨_, p⟩] [] := Opened.nil.other h.token.1 h.token.2.1
    cases h <;> exact hrow
  | group name p q r hsep hes ih =>
    obtain ⟨pairs, hpairs⟩ := ih (level + 1)
    have hinner : Balanced (⟨.identifier name, q⟩ :: _) :=
      .other rfl rfl (hsep.balanced.append hes.balanced)
    have hopened := (hpairs.comma hsep).other (t := ⟨.identifier name, q⟩) rfl rfl
    rw [← List.append_assoc, ← List.cons_append]
    exact ⟨_, hopened.nested rfl rfl hinner rfl⟩
  | array p r hitems ih =>
    obtain ⟨pairs, hpairs⟩ := ih (level + 1)
    exact ⟨_, hpairs.nested rfl rfl hitems.balanced rfl⟩
  | expression name p q r hes ih =>
    obtain ⟨pairs, hpairs⟩ := ih (level + 1)
    have hinner : Balanced (⟨.identifier name, q⟩ :: _) := .other rfl rfl hes.balanced
    have hopened := hpairs.other (t := ⟨.identifier name, q⟩) rfl rfl
    rw [← List.cons_append]
    exact ⟨_, hopened.nested rfl rfl hinner rfl⟩
  | plain _ ih => exact ih level
  | keyed p q hkey _ ih =>
    obtain ⟨pairs, hpairs⟩ := ih level
    exact ⟨pairs, (hpairs.other hkey.token.1 hkey.token.2).other rfl rfl⟩
  | noEntries => exact ⟨[], .nil⟩
  | @moreEntries e es ts sep us he hsep _ ihe ihes =>
    obtain ⟨pairs, hpairs⟩ := ihe level
    obtain ⟨pairs', hpairs'⟩ := ihes level
    obtain ⟨key, tree, p⟩ := e
    exact ⟨_, hpairs.append (hpairs'.comma hsep) he.balanced⟩
  | noItems => exact ⟨[], .nil⟩
  | moreItems h hsep _ ih ihs =>
    obtain ⟨pairs, hpairs⟩ := ih level
    obtain ⟨pairs', hpairs'⟩ := ihs level
    exact ⟨_, hpairs.append (hpairs'.comma hsep) h.balanced⟩

theorem DerivesText.opened {forms : List Form} {ts : List PlacedToken} (h : DerivesText forms ts) :
    ∃ pairs, Opened 0 (forms.flatMap fun form => (Tree.group form).nested 0) ts pairs := by
  induction h with
  | done => exact ⟨[], .nil⟩
  | more hform _ ih =>
    obtain ⟨pairs, hpairs⟩ := hform.opened 0
    obtain ⟨pairs', hpairs'⟩ := ih
    exact ⟨_, hpairs.append hpairs' hform.balanced⟩

/-! ## A single token for what lies too deep -/

/-- A row with one `null` in place of everything that is opened inside `limit` others; `depth`
counts what is open around the row. -/
def shortened (limit : Nat) : Nat → List PlacedToken → List PlacedToken
  | _, [] => []
  | depth, t :: rest =>
    if opens t.token then
      (if depth < limit then [t] else if depth = limit then [⟨.null, t.position⟩] else []) ++
        shortened limit (depth + 1) rest
    else if closes t.token then
      (if depth ≤ limit then [t] else []) ++ shortened limit (depth - 1) rest
    else
      (if depth ≤ limit then [t] else []) ++ shortened limit depth rest

section Shortened

variable {t o c : PlacedToken} {ts inner : List PlacedToken} {limit depth : Nat}

theorem shortened_other (hopens : opens t.token = false) (hcloses : closes t.token = false)
    (ts : List PlacedToken) : shortened limit depth (t :: ts) =
      (if depth ≤ limit then [t] else []) ++ shortened limit depth ts := by
  rw [shortened, if_neg (by simp [hopens]), if_neg (by simp [hcloses])]

theorem shortened_kept (hopens : opens t.token = false) (hcloses : closes t.token = false)
    (hle : depth ≤ limit) (ts : List PlacedToken) :
    shortened limit depth (t :: ts) = t :: shortened limit depth ts := by
  rw [shortened_other hopens hcloses, if_pos hle]
  rfl

theorem shortened_opens (ho : opens o.token = true) (ts : List PlacedToken) :
    shortened limit depth (o :: ts) =
      (if depth < limit then [o] else if depth = limit then [⟨.null, o.position⟩] else []) ++
        shortened limit (depth + 1) ts := by
  rw [shortened, if_pos ho]

theorem shortened_closes (hc : closes c.token = true) (ts : List PlacedToken) :
    shortened limit (depth + 1) (c :: ts) =
      (if depth < limit then [c] else []) ++ shortened limit depth ts := by
  rw [shortened, if_neg (by simp [opens_of_closes hc]), if_pos hc, Nat.add_sub_cancel]
  rfl

/-- After a balanced row the count is what it was before. -/
theorem Balanced.shortened_append (h : Balanced ts) (limit depth : Nat) (rest : List PlacedToken) :
    shortened limit depth (ts ++ rest) =
      shortened limit depth ts ++ shortened limit depth rest := by
  induction h generalizing depth rest with
  | nil => rfl
  | other hopens hcloses _ ih =>
    rw [List.cons_append, shortened_other hopens hcloses, shortened_other hopens hcloses, ih,
      List.append_assoc]
  | @nested o c inner ts ho hc _ _ ihinner ih =>
    rw [List.cons_append, List.append_assoc, List.cons_append, shortened_opens ho,
      shortened_opens ho, ihinner _ (c :: (ts ++ rest)), ihinner _ (c :: ts), shortened_closes hc,
      shortened_closes hc, ih]
    simp only [List.append_assoc]

/-- Inside something that lies too deep itself nothing is left. -/
theorem Balanced.shortened_of_lt (h : Balanced ts) (hlt : limit < depth) :
    shortened limit depth ts = [] := by
  induction h generalizing depth with
  | nil => rfl
  | other hopens hcloses _ ih =>
    rw [shortened_other hopens hcloses, if_neg (by omega), ih hlt]
    rfl
  | nested ho hc hinner _ ihinner ih =>
    rw [shortened_opens ho, if_neg (by omega), if_neg (by omega), hinner.shortened_append,
      ihinner (by omega), shortened_closes hc, if_neg (by omega), ih hlt]
    rfl

theorem Comma.shortened {sep : List PlacedToken} (h : Comma sep) (hle : depth ≤ limit) :
    Tree.shortened limit depth sep = sep := by
  cases h with
  | absent => rfl
  | present p => exact shortened_kept rfl rfl hle []

/-- A row in brackets stays when there are levels left, and its inside is shortened. -/
theorem shortened_nested (ho : opens o.token = true) (hc : closes c.token = true)
    (hinner : Balanced inner) (levels depth : Nat) :
    shortened (depth + (levels + 1)) depth (o :: (inner ++ [c])) =
      o :: (shortened ((depth + 1) + levels) (depth + 1) inner ++ [c]) := by
  rw [shortened_opens ho, if_pos (by omega), hinner.shortened_append, shortened_closes hc,
    if_pos (by omega), show depth + (levels + 1) = (depth + 1) + levels by omega]
  rfl

/-- When there are none, a single token is left of it. -/
theorem shortened_nested_zero (ho : opens o.token = true) (hc : closes c.token = true)
    (hinner : Balanced inner) (depth : Nat) :
    shortened (depth + 0) depth (o :: (inner ++ [c])) = [⟨.null, o.position⟩] := by
  rw [shortened_opens ho, if_neg (by omega), if_pos (Nat.add_zero depth).symm,
    hinner.shortened_append, hinner.shortened_of_lt (by omega), shortened_closes hc,
    if_neg (by omega)]
  rfl

/-- The first token may become another one, but it keeps its position. -/
theorem shortened_head (hcloses : closes t.token = false) (hle : depth ≤ limit)
    (ts : List PlacedToken) :
    ∃ t' us, shortened limit depth (t :: ts) = t' :: us ∧ t'.position = t.position := by
  by_cases hopens : opens t.token = true
  · rw [shortened_opens hopens]
    rcases Nat.lt_or_eq_of_le hle with hlt | rfl
    · rw [if_pos hlt]
      exact ⟨t, _, rfl, rfl⟩
    · rw [if_neg (Nat.lt_irrefl _), if_pos rfl]
      exact ⟨⟨.null, t.position⟩, _, rfl, rfl⟩
  · rw [shortened_kept (by simpa using hopens) hcloses hle]
    exact ⟨t, _, rfl, rfl⟩

end Shortened

/-- A part of a tree with null for whatever lies below a number of levels. -/
def Phrase.shortened (levels : Nat) : Phrase → Phrase
  | value tree => .value (tree.prune levels).repaired
  | entry e => .entry ⟨e.key, (e.value.prune levels).repaired, e.position⟩
  | entries es => .entries (Entries.repaired (Entries.prune levels es))
  | items trees => .items (Trees.repaired (Trees.prune levels trees))

theorem closes_of_startsEntry {t : Token} (h : startsEntry t = true) : closes t = false := by
  cases t <;> first | rfl | cases h

/-- **The shortened row is derived**, as the tree with null for what is cut off. -/
theorem Derives.shortened {phrase : Phrase} {ts : List PlacedToken} (h : Derives phrase ts)
    (levels depth : Nat) :
    Derives (phrase.shortened levels) (Tree.shortened (depth + levels) depth ts) := by
  -- `depth` is what is open around the row, so it grows with every level that is entered
  induction h generalizing levels depth with
  | scalar p h =>
    have hrow := shortened_kept (t := ⟨_, p⟩) h.token.1 h.token.2.1
      (Nat.le_add_right depth levels) []
    rw [hrow]
    cases h with
    | integer hi => exact .scalar p (.integer hi)
    | float n => exact .scalar p (.float n)
    | string content => exact .scalar p (.string content)
    | bool b => exact .scalar p (.bool b)
    | null => exact .scalar p .null
  | group name p q r hsep hes ih =>
    have hinner : Balanced (⟨.identifier name, q⟩ :: _) :=
      .other rfl rfl (hsep.balanced.append hes.balanced)
    rw [← List.append_assoc, ← List.cons_append]
    cases levels with
    | zero =>
      rw [shortened_nested_zero rfl rfl hinner]
      exact .scalar p .null
    | succ levels =>
      have hle : depth + 1 ≤ (depth + 1) + levels := Nat.le_add_right _ _
      rw [shortened_nested rfl rfl hinner, shortened_kept rfl rfl hle,
        hsep.balanced.shortened_append, hsep.shortened hle, List.cons_append, List.append_assoc]
      exact .group name p q r hsep (ih levels (depth + 1))
  | array p r hitems ih =>
    cases levels with
    | zero =>
      rw [shortened_nested_zero rfl rfl hitems.balanced]
      exact .scalar p .null
    | succ levels =>
      rw [shortened_nested rfl rfl hitems.balanced]
      exact .array p r (ih levels (depth + 1))
  | expression name p q r hes ih =>
    have hinner : Balanced (⟨.identifier name, q⟩ :: _) := .other rfl rfl hes.balanced
    rw [← List.cons_append]
    cases levels with
    | zero =>
      rw [shortened_nested_zero rfl rfl hinner]
      exact .scalar p .null
    | succ levels =>
      have hle : depth + 1 ≤ (depth + 1) + levels := Nat.le_add_right _ _
      rw [shortened_nested rfl rfl hinner, shortened_kept rfl rfl hle, List.cons_append]
      exact .expression name p q r (ih levels (depth + 1))
  -- an entry without a key stands where its value starts, and that place stays
  | @plain tree t ts h ih =>
    obtain ⟨_, _, heq, hstart, -⟩ := h.value_starts
    cases heq
    obtain ⟨t', us, hrow, hposition⟩ := shortened_head (closes_of_startsEntry hstart)
      (Nat.le_add_right depth levels) ts
    have hvalue := ih levels depth
    rw [hrow] at hvalue ⊢
    rw [Phrase.shortened, ← hposition]
    exact .plain hvalue
  | keyed p q hkey _ ih =>
    have hle : depth ≤ depth + levels := Nat.le_add_right _ _
    rw [shortened_kept rfl rfl hle, shortened_kept hkey.token.1 hkey.token.2 hle]
    exact .keyed p q hkey (ih levels depth)
  | noEntries => exact .noEntries
  | @moreEntries e es ts sep us he hsep _ ihe ihes =>
    rw [he.balanced.shortened_append, hsep.balanced.shortened_append,
      hsep.shortened (Nat.le_add_right depth levels)]
    obtain ⟨key, tree, p⟩ := e
    exact .moreEntries (ihe levels depth) hsep (ihes levels depth)
  | noItems => exact .noItems
  | moreItems h hsep _ ih ihs =>
    rw [h.balanced.shortened_append, hsep.balanced.shortened_append,
      hsep.shortened (Nat.le_add_right depth levels)]
    exact .moreItems (ih levels depth) hsep (ihs levels depth)

/-- A top-level group is on a level of its own, which is none of those that are limited. -/
theorem DerivesText.shortened {forms : List Form} {ts : List PlacedToken}
    (h : DerivesText forms ts) :
    DerivesText (forms.map fun form => (form.prune maxDepth).repaired)
      (Tree.shortened (maxDepth + 1) 0 ts) := by
  induction h with
  | done => exact .done
  | @more form forms ts us hform _ ih =>
    have hgroup := hform.shortened (maxDepth + 1) 0
    rw [Nat.zero_add] at hgroup
    rw [hform.balanced.shortened_append]
    exact .more hgroup ih

end Tree

/-! ## Texts -/

namespace Parsed

open DataLisp.Tree

/-- **The limit of nesting prunes, and does nothing else.** Let the spelling of a text be right and
its tokens derived, however deep they nest.

The parser returns the forms of the derivation with an invalid value in place of whatever is
nested on the first level below the allowed ones. Its errors are one for each of these, in order:
the values that nest are paired with the tokens that open them, and there is an error at the token
if the value is on that level. And if each of these values had been a `null`, that row would be
derived as the forms that were parsed, with null in place of what is invalid, and would be parsed as
them without an error. -/
theorem prunes_too_deep {text : String} {forms : List Form}
    (hspelling : (Token.scan text).problems.hasErrors = false)
    (hderives : DerivesText forms (Token.scan text).tokens) :
    (Parsed.ofText text).forms = forms.map (Form.prune maxDepth) ∧
    (∃ pairs : List ((Nat × Tree) × PlacedToken),
      pairs.map Prod.fst = (forms.flatMap fun form => (Tree.group form).nested 0) ∧
      pairs.map Prod.snd = (Token.scan text).tokens.filter (fun t => opens t.token) ∧
      (∀ pair ∈ pairs, pair.1.2.OpenedBy pair.2) ∧
      (Parsed.ofText text).diagnostics = (pairs.filter fun pair => pair.1.1 = maxDepth + 1).map
        fun pair => .error pair.2.position "nesting deeper than 256 levels") ∧
    DerivesText ((Parsed.ofText text).forms.map Form.repaired)
      (shortened (maxDepth + 1) 0 (Token.scan text).tokens) ∧
    ∀ stop, tops stop (shortened (maxDepth + 1) 0 (Token.scan text).tokens) =
      ⟨((Parsed.ofText text).forms.map Form.repaired, []), []⟩ := by
  rw [Diagnostics.hasErrors_eq_false_iff (Token.scan_sound text).2] at hspelling
  rw [complete hspelling hderives]
  have hshort := hderives.shortened
  refine ⟨rfl, ?_, ?_, ?_⟩
  · obtain ⟨pairs, hpairs⟩ := hderives.opened
    refine ⟨pairs, hpairs.values, hpairs.tokens, hpairs.opened, ?_⟩
    dsimp only
    rw [deepNotes, Nat.zero_add, hpairs.overflows, List.map_map]
    rfl
  · rw [List.map_map]
    exact hshort
  · intro stop
    have hshallow : ∀ form ∈ forms.map fun form => (form.prune maxDepth).repaired,
        form.depth ≤ maxDepth :=
      List.forall_mem_map.mpr fun form _ => Form.depth_repaired_prune maxDepth form
    rw [tops_complete hshort, Form.map_prune_eq_self hshallow,
      (deepNotes_eq_nil_iff hshort).mpr hshallow, List.map_map]
    rfl

/-- As many opening brackets as closing ones, around a `null`, are arrays inside each other. -/
theorem derives_arrays (n : Nat) {ts : List PlacedToken} (hts : ts.map PlacedToken.token =
    List.replicate n .openBracket ++ .null :: List.replicate n .closeBracket) :
    Derives (.value ((fun tree => .array [tree])^[n] .null)) ts := by
  induction n generalizing ts with
  | zero =>
    obtain ⟨⟨_, p⟩, _, rfl, rfl, hnil⟩ := List.map_eq_cons_iff.mp hts
    obtain rfl := List.map_eq_nil_iff.mp hnil
    exact .scalar p .null
  | succ n ih =>
    -- the outermost brackets are the first and the last token
    rw [List.replicate_succ, List.replicate_succ', List.cons_append,
      ← List.cons_append (a := Token.null), ← List.append_assoc] at hts
    obtain ⟨⟨_, p⟩, _, rfl, rfl, hmore⟩ := List.map_eq_cons_iff.mp hts
    obtain ⟨inner, last, rfl, hinner, hlast⟩ := List.map_eq_append_iff.mp hmore
    obtain ⟨⟨_, r⟩, _, rfl, rfl, hnil⟩ := List.map_eq_cons_iff.mp hlast
    obtain rfl := List.map_eq_nil_iff.mp hnil
    rw [Function.iterate_succ_apply']
    have hitems := Derives.moreItems (ih hinner) .absent .noItems
    rw [List.nil_append, List.append_nil] at hitems
    exact .array p r hitems

/-- They lie on one level after the other. -/
theorem nested_arrays (n level : Nat) :
    (((fun tree => Tree.array [tree])^[n] .null).nested level).map Prod.fst =
      List.range' level n := by
  induction n generalizing level with
  | zero => rfl
  | succ n ih =>
    rw [Function.iterate_succ_apply', Tree.nested, Trees.nested, Trees.nested, List.append_nil,
      List.map_cons, ih, List.range'_succ]

/-- And they are what is written for values of that sort. -/
theorem tokens_arrays (n : Nat) : ((fun v => Value.array [⟨none, v⟩])^[n] .null).tokens =
    List.replicate n .openBracket ++ .null :: List.replicate n .closeBracket := by
  induction n with
  | zero => rfl
  | succ n ih =>
    rw [Function.iterate_succ_apply', Value.tokens, Items.tokens, Items.tokens, ih,
      List.replicate_succ, List.replicate_succ']
    simp

/-- A text with 257 arrays inside each other has one error, and with a `null` for the innermost of
them none. -/
theorem prunes_too_deep_arrays :
    ∃ text forms, (Token.scan text).problems.hasErrors = false ∧
      DerivesText forms (Token.scan text).tokens ∧
      (Parsed.ofText text).diagnostics.length = 1 ∧
      (tops (Token.scan text).stop
        (shortened (maxDepth + 1) 0 (Token.scan text).tokens)).notes = [] := by
  have hwritable := Document.offences_eq_nil_iff.mp (show Document.offences
    [⟨"a", [], [(fun v => .array [⟨none, v⟩])^[257] .null]⟩] = [] by decide +kernel)
  obtain ⟨htokens, hspelling⟩ := Document.scan_layout hwritable 0
  rw [Document.tokens, List.flatMap_singleton, Group.tokens, Values.tokens, Values.tokens,
    tokens_arrays, Named.tokens, List.append_nil, List.nil_append] at htokens
  generalize Document.layout 0 _ = text at htokens hspelling
  obtain ⟨⟨_, p⟩, _, hts, rfl, hname⟩ := List.map_eq_cons_iff.mp htokens
  obtain ⟨⟨_, q⟩, _, rfl, rfl, hentries⟩ := List.map_eq_cons_iff.mp hname
  obtain ⟨inner, last, rfl, hinner, hlast⟩ := List.map_eq_append_iff.mp hentries
  obtain ⟨⟨_, r⟩, _, rfl, rfl, hnil⟩ := List.map_eq_cons_iff.mp hlast
  obtain rfl := List.map_eq_nil_iff.mp hnil
  have hvalue := derives_arrays 257 hinner
  obtain ⟨t, ts, rfl, -, -⟩ := hvalue.value_starts
  have hentries := Derives.moreEntries (.plain hvalue) .absent .noEntries
  rw [List.nil_append, List.append_nil] at hentries
  have hforms := DerivesText.more (.group "a".toList p q r .absent hentries) .done
  rw [List.append_nil, List.nil_append, ← hts] at hforms
  have hquiet : (Token.scan text).problems.hasErrors = false := by rw [hspelling]; rfl
  obtain ⟨-, ⟨pairs, hvalues, -, -, herrors⟩, -, hshort⟩ := prunes_too_deep hquiet hforms
  refine ⟨text, _, hquiet, hforms, ?_, ?_⟩
  · have hpairs : (pairs.map fun pair => pair.1.1) = 0 :: List.range' 1 257 := by
      have hfirst := congrArg (List.map Prod.fst) hvalues
      rw [List.map_map] at hfirst
      rw [List.flatMap_singleton, Tree.nested, Form.nested, Entries.nested, Entries.nested,
        List.append_nil, List.map_cons, nested_arrays] at hfirst
      exact hfirst
    have hlength := congrArg (fun levels => (levels.filter (· = maxDepth + 1)).length) hpairs
    rw [herrors, List.length_map]
    rw [List.filter_map, List.length_map] at hlength
    exact hlength
  · rw [hshort]

end Parsed

end DataLisp
