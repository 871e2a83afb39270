/-
The parser finds whatever the grammar derives.

The proof goes along the runs of the parser. A run of a sequence of steps is the runs of its
steps, their notes one after the other (`bind_run`), and a run without notes has steps
without notes (`bind_quiet`).

Completeness is shown for derivations of any depth. Where levels are left the parser enters
what it finds, and where none are left it reports the opening token and drops the balanced
row after it; so on a derived row it returns the tree cut off below its levels, and its
notes are exactly the openings that lie too deep (`Derives.parsed`). A shallow tree comes
back as it is, with no note. The induction is on the derivation, and what a loop does with
a row is settled by one turn of it (`many_run`).

Since the parser is a function, a derived row stands for one tree only
(`DerivesText.unique`).
-/
import DataLisp.Proofs.Derivation

set_option autoImplicit false

namespace DataLisp.Tree

open DataLisp.Tree.Parser

/-! ## Runs -/

namespace Parser

variable {α β : Type} {stop : Position} {tokens rest rest' : List PlacedToken}
  {notes notes' : Diagnostics} {x : Parser α} {f : α → Parser β} {a : α} {b : β}

/-- The run of a sequence is the runs of its steps. -/
theorem bind_run (hx : x stop tokens = ⟨(a, rest), notes⟩)
    (hf : f a stop rest = ⟨(b, rest'), notes'⟩) :
    (x >>= f) stop tokens = ⟨(b, rest'), notes ++ notes'⟩ := by
  rw [bind_apply, hx]
  show (⟨(f a stop rest).value, notes ++ (f a stop rest).notes⟩ : Noted Diagnostic _) = _
  rw [hf]

theorem bind_run_quiet (hx : x stop tokens = ⟨(a, rest), []⟩)
    (hf : f a stop rest = ⟨(b, rest'), notes⟩) : (x >>= f) stop tokens = ⟨(b, rest'), notes⟩ :=
  bind_run hx hf

/-- **A sequence without a note** has steps without a note. -/
theorem bind_quiet (h : (x >>= f) stop tokens = ⟨(b, rest'), []⟩) :
    ∃ a rest, x stop tokens = ⟨(a, rest), []⟩ ∧ f a stop rest = ⟨(b, rest'), []⟩ := by
  rw [bind_apply] at h
  have hnotes : (x stop tokens).notes ++
      (f (x stop tokens).value.1 stop (x stop tokens).value.2).notes = [] :=
    congrArg Noted.notes h
  have hvalue : (f (x stop tokens).value.1 stop (x stop tokens).value.2).value = (b, rest') :=
    congrArg Noted.value h
  obtain ⟨hfirst, hsecond⟩ := List.append_eq_nil_iff.mp hnotes
  refine ⟨(x stop tokens).value.1, (x stop tokens).value.2, ?_, ?_⟩
  · rw [← hfirst]
  · rw [← hsecond, ← hvalue]

/-- The place of the next token, if it is known what token that is. -/
theorem head_token {wanted : Token} (h : tokens.head?.map PlacedToken.token = some wanted) :
    ∃ p, tokens = ⟨wanted, p⟩ :: tokens.tail := by
  cases tokens with
  | nil => cases h
  | cons t rest =>
    cases h
    exact ⟨t.position, rfl⟩

theorem eat_run {t : PlacedToken} {wanted : Token} (ht : t.token = wanted) :
    eat wanted stop (t :: rest) = ⟨(true, rest), []⟩ := by
  rw [eat_apply, if_pos (by simp [ht])]
  rfl

/-- A token that is not there is not taken, and nothing is said of it. -/
theorem eat_stay {wanted : Token} (h : ∀ t, tokens.head? = some t → t.token ≠ wanted) :
    eat wanted stop tokens = ⟨(false, tokens), []⟩ := by
  rw [eat_apply, if_neg]
  cases tokens with
  | nil => simp
  | cons t rest => simpa using h t rfl

/-- Taking a token never leaves a note, whether it is there or not. -/
theorem eat_quiet {wanted : Token} {eaten : Bool}
    (h : eat wanted stop tokens = ⟨(eaten, rest), []⟩) :
    (eaten = true ∧ ∃ p, tokens = ⟨wanted, p⟩ :: rest) ∨ (eaten = false ∧ tokens = rest) := by
  rw [eat_apply] at h
  split at h
  · rename_i hhead
    cases h
    exact .inl ⟨rfl, head_token hhead⟩
  · cases h
    exact .inr ⟨rfl, rfl⟩

theorem expect_run {t : PlacedToken} {wanted : Token} (ht : t.token = wanted) :
    expect wanted stop (t :: rest) = ⟨((), rest), []⟩ := by
  rw [expect_apply, if_pos (by simp [ht])]
  rfl

/-- A token that is asked for without a note is there. -/
theorem expect_quiet {wanted : Token} (h : expect wanted stop tokens = ⟨((), rest), []⟩) :
    ∃ p, tokens = ⟨wanted, p⟩ :: rest := by
  rw [expect_apply] at h
  split at h
  · rename_i hhead
    cases h
    exact head_token hhead
  · rw [report_apply] at h
    cases h

/-- A loop ends before a token that starts no turn. -/
theorem many_stop {starts : Token → Bool}
    (h : ∀ t, tokens.head? = some t → starts t.token = false) :
    many starts x stop tokens = ⟨([], tokens), []⟩ := by
  rw [many, if_neg]
  cases tokens with
  | nil => simp
  | cons t rest => simpa using h t rfl

/-- One turn of a loop. -/
theorem many_run {starts : Token → Bool} {t : PlacedToken} {as : List α}
    (hstart : starts t.token = true) (hx : x stop (t :: tokens) = ⟨(a, rest), notes⟩)
    (hshort : rest.length < (t :: tokens).length)
    (hmore : many starts x stop rest = ⟨(as, rest'), notes'⟩) :
    many starts x stop (t :: tokens) = ⟨(a :: as, rest'), notes ++ notes'⟩ := by
  rw [many, if_pos (by simpa using hstart)]
  simp only [hx, if_pos hshort, hmore]

/-- **A loop without a note**: if every turn takes tokens that may be put in front of a row
with the property, then what the loop has taken has the property, and what follows does
not start another turn. The induction is on the number of tokens ahead. -/
theorem many_sound {starts : Token → Bool} {P : List α → List PlacedToken → Prop}
    (hnil : P [] [])
    (hone : ∀ {tokens a rest}, tokens ≠ [] → x stop tokens = ⟨(a, rest), []⟩ →
      ∃ ts, tokens = ts ++ rest ∧ ts ≠ [] ∧ ∀ as us, P as us → P (a :: as) (ts ++ us))
    {as : List α} (h : many starts x stop tokens = ⟨(as, rest), []⟩) :
    ∃ ts, tokens = ts ++ rest ∧ P as ts ∧ ∀ t, rest.head? = some t → starts t.token = false := by
  induction hn : tokens.length using Nat.strong_induction_on generalizing tokens as with
  | _ n ih =>
    subst hn
    by_cases hstart : tokens.head?.any (fun t => starts t.token) = true
    · have htokens : tokens ≠ [] := by
        rintro rfl
        simp at hstart
      obtain ⟨⟨⟨a, mid⟩, first⟩, hx⟩ : ∃ r, x stop tokens = r := ⟨_, rfl⟩
      rw [many, if_pos hstart] at h
      simp only [hx] at h
      split at h
      · rename_i hshort
        obtain ⟨⟨⟨as', last⟩, more⟩, hmore⟩ : ∃ r, many starts x stop mid = r := ⟨_, rfl⟩
        simp only [hmore, Noted.mk.injEq, Prod.mk.injEq, List.append_eq_nil_iff] at h
        obtain ⟨⟨rfl, rfl⟩, rfl, rfl⟩ := h
        obtain ⟨ts, rfl, -, hfront⟩ := hone htokens hx
        obtain ⟨us, rfl, hP, hstop⟩ := ih mid.length hshort hmore rfl
        exact ⟨ts ++ us, by rw [List.append_assoc], hfront _ _ hP, hstop⟩
      -- a turn without a note takes at least one token, so the loop cannot stop here
      · rename_i hlong
        simp only [Noted.mk.injEq, Prod.mk.injEq] at h
        obtain ⟨-, rfl⟩ := h
        obtain ⟨ts, rfl, hne, -⟩ := hone htokens hx
        have hpos : 0 < ts.length := List.length_pos_iff.mpr hne
        rw [List.length_append] at hlong
        omega
    · rw [many, if_neg hstart] at h
      cases h
      refine ⟨[], rfl, hnil, ?_⟩
      intro t ht
      rw [ht] at hstart
      simpa using hstart

end Parser

/-! ## Completeness: the parts -/

section Complete

variable {stop : Position} {tokens rest : List PlacedToken} {notes : Diagnostics}
  {read : Parser Tree}

/-- What may stand after entries or items: neither another one nor a comma. -/
def Ends (rest : List PlacedToken) : Prop :=
  ∀ t, rest.head? = some t → startsEntry t.token = false ∧ t.token ≠ .comma

/-- A closing bracket or parenthesis ends a row. -/
theorem ends_closes {t : PlacedToken} (h : closes t.token = true) : Ends (t :: rest) := by
  rintro _ ⟨⟩
  generalize t.token = token at h ⊢
  refine ⟨?_, ?_⟩
  · cases token <;> first | rfl | cases h
  · rintro rfl
    cases h

theorem name_run (word : List Char) (q : Position) :
    name stop (⟨.identifier word, q⟩ :: rest) = ⟨(String.ofList word, rest), []⟩ := rfl

theorem key_run {t : Token} {text : String} (h : IsKey t text) (q : Position) :
    key stop (⟨t, q⟩ :: rest) = ⟨(some text, rest), []⟩ := by
  cases h with
  | word word => rfl
  | number hn =>
    unfold key
    refine bind_run_quiet (peek_apply stop _) ?_
    simp only [List.head?_cons, Option.map_some, hn, if_true]
    rfl

theorem scalar_run {t : Token} {tree : Tree} (h : IsScalar t tree) (q : Position) :
    scalar stop (⟨t, q⟩ :: rest) = ⟨(tree, rest), []⟩ := by
  cases h with
  | integer hi =>
    unfold scalar
    refine bind_run_quiet (peek_apply stop _) ?_
    simp only [List.head?_cons, Option.map_some, hi]
    rfl
  | float n => rfl
  | string content => rfl
  | bool b => rfl
  | null => rfl

/-- A comma is taken where there is one, so that both ways of writing a row are read. -/
theorem comma_run (stop : Position) {sep : List PlacedToken} (h : Comma sep)
    (hrest : ∀ t, rest.head? = some t → t.token ≠ .comma) :
    ∃ eaten, eat .comma stop (sep ++ rest) = ⟨(eaten, rest), []⟩ := by
  cases h with
  | absent => exact ⟨false, eat_stay hrest⟩
  | present p => exact ⟨true, eat_run rfl⟩

/-- What follows a comma inside a row of entries is no comma: an entry, or the end. -/
theorem entries_no_comma {es : List Entry} {us : List PlacedToken} (h : Derives (.entries es) us)
    (hrest : Ends rest) : ∀ t, (us ++ rest).head? = some t → t.token ≠ .comma := by
  cases h with
  | noEntries => exact fun t ht => (hrest t ht).2
  | moreEntries he hsep hes =>
    obtain ⟨t, ts, rfl, hstart⟩ := he.entry_starts
    rintro _ ⟨⟩ hcomma
    rw [hcomma] at hstart
    cases hstart

/-- The same inside a row of items. -/
theorem items_no_comma {trees : List Tree} {us : List PlacedToken} (h : Derives (.items trees) us)
    (hrest : Ends rest) : ∀ t, (us ++ rest).head? = some t → t.token ≠ .comma := by
  cases h with
  | noItems => exact fun t ht => (hrest t ht).2
  | moreItems h hsep hitems =>
    obtain ⟨t, ts, rfl, hstart, -⟩ := h.value_starts
    rintro _ ⟨⟩ hcomma
    rw [hcomma] at hstart
    cases hstart

/-- An entry without a colon is its value. -/
theorem entry_plain {t : PlacedToken} {ts : List PlacedToken} {tree : Tree}
    (ht : t.token ≠ .colon) (hread : read stop (t :: ts) = ⟨(tree, rest), notes⟩) :
    entry read stop (t :: ts) = ⟨(⟨none, tree, t.position⟩, rest), notes⟩ := by
  unfold entry
  refine bind_run_quiet (position_apply stop _) ?_
  refine bind_run_quiet (eat_stay (by rintro _ ⟨⟩; exact ht)) ?_
  refine bind_run_quiet rfl ?_
  rw [← List.append_nil notes]
  exact bind_run hread rfl

/-- An entry with a colon is its key and its value. -/
theorem entry_keyed {t : Token} {text : String} {ts : List PlacedToken} {tree : Tree}
    (hkey : IsKey t text) (p q : Position) (hread : read stop ts = ⟨(tree, rest), notes⟩) :
    entry read stop (⟨.colon, p⟩ :: ⟨t, q⟩ :: ts) = ⟨(⟨some text, tree, p⟩, rest), notes⟩ := by
  unfold entry
  refine bind_run_quiet (position_apply stop _) ?_
  refine bind_run_quiet (eat_run rfl) ?_
  refine bind_run_quiet (key_run hkey q) ?_
  rw [← List.append_nil notes]
  exact bind_run hread rfl

/-- A scalar needs no level. -/
theorem value_scalar_run {t : Token} {tree : Tree} (h : IsScalar t tree) (q : Position)
    (levels : Nat) : value levels stop (⟨t, q⟩ :: rest) = ⟨(tree, rest), []⟩ := by
  cases levels with
  | zero =>
    unfold value
    refine bind_run_quiet (peek_apply stop _) ?_
    rw [if_neg (by simp [h.token.1])]
    exact scalar_run h q
  | succ levels =>
    unfold value
    refine bind_run_quiet (position_apply stop _) ?_
    refine bind_run_quiet (peek_apply stop _) ?_
    cases h with
    | integer hi => exact scalar_run (.integer hi) q
    | float n => exact scalar_run (.float n) q
    | string content => exact scalar_run (.string content) q
    | bool b => exact scalar_run (.bool b) q
    | null => exact scalar_run .null q

/-- Without levels an opening token is reported and the row that it opens is dropped. -/
theorem value_too_deep {o c : PlacedToken} {inner : List PlacedToken} (ho : opens o.token = true)
    (hc : closes c.token = true) (hinner : Balanced inner) :
    value 0 stop (o :: (inner ++ c :: rest)) =
      ⟨(.invalid, rest), [Problem.tooDeep.report o.position]⟩ := by
  unfold value
  refine bind_run_quiet (peek_apply stop _) ?_
  rw [if_pos (by simpa using ho)]
  rw [← List.append_nil [Problem.tooDeep.report o.position]]
  refine bind_run (report_apply stop _ _) ?_
  have hdrop : (modify (dropBalanced 0) : Parser Unit) stop (o :: (inner ++ c :: rest)) =
      ⟨((), rest), []⟩ := by
    show (⟨((), dropBalanced 0 (o :: (inner ++ c :: rest))), []⟩ : Noted Diagnostic _) = _
    rw [dropBalanced_nested ho hc hinner rest]
  exact bind_run_quiet hdrop rfl

/-- A group, once its inside is read, up to the closing parenthesis. -/
theorem value_group_run {p : Position} {c : PlacedToken} {form : Form} {levels : Nat}
    (hc : c.token = .closeParen)
    (hform : groupForm (value levels) p stop tokens = ⟨(form, c :: rest), notes⟩) :
    value (levels + 1) stop (⟨.openParen, p⟩ :: tokens) = ⟨(.group form, rest), notes⟩ := by
  unfold value
  refine bind_run_quiet (position_apply stop _) ?_
  refine bind_run_quiet (peek_apply stop _) ?_
  refine bind_run_quiet (skip_apply stop _) ?_
  rw [← List.append_nil notes]
  refine bind_run hform ?_
  exact bind_run_quiet (expect_run hc) rfl

/-- An array, once its items are read. -/
theorem value_array_run {p : Position} {c : PlacedToken} {trees : List Tree} {levels : Nat}
    (hc : c.token = .closeBracket)
    (hitems : items (value levels) stop tokens = ⟨(trees, c :: rest), notes⟩) :
    value (levels + 1) stop (⟨.openBracket, p⟩ :: tokens) = ⟨(.array trees, rest), notes⟩ := by
  unfold value
  refine bind_run_quiet (position_apply stop _) ?_
  refine bind_run_quiet (peek_apply stop _) ?_
  refine bind_run_quiet (skip_apply stop _) ?_
  rw [← List.append_nil notes]
  refine bind_run hitems ?_
  exact bind_run_quiet (expect_run hc) rfl

/-- An expression, once its inside is read. -/
theorem value_expression_run {p : Position} {c : PlacedToken} {form : Form} {levels : Nat}
    (hc : c.token = .closeParen)
    (hform : expressionForm (value levels) p stop tokens = ⟨(form, c :: rest), notes⟩) :
    value (levels + 1) stop (⟨.openExpression, p⟩ :: tokens) =
      ⟨(.expression form, rest), notes⟩ := by
  unfold value
  refine bind_run_quiet (position_apply stop _) ?_
  refine bind_run_quiet (peek_apply stop _) ?_
  refine bind_run_quiet (skip_apply stop _) ?_
  rw [← List.append_nil notes]
  refine bind_run hform ?_
  exact bind_run_quiet (expect_run hc) rfl

theorem groupForm_run {sep : List PlacedToken} {es : List Entry} (word : List Char)
    (p q : Position) (hsep : Comma sep) (hcomma : ∀ t, tokens.head? = some t → t.token ≠ .comma)
    (hes : entries read stop tokens = ⟨(es, rest), notes⟩) :
    groupForm read p stop (⟨.identifier word, q⟩ :: (sep ++ tokens)) =
      ⟨(⟨String.ofList word, es, p⟩, rest), notes⟩ := by
  obtain ⟨eaten, heat⟩ := comma_run stop hsep hcomma
  unfold groupForm
  refine bind_run_quiet (name_run word q) ?_
  refine bind_run_quiet heat ?_
  rw [← List.append_nil notes]
  exact bind_run hes rfl

theorem expressionForm_run {es : List Entry} (word : List Char) (p q : Position)
    (hes : entries read stop tokens = ⟨(es, rest), notes⟩) :
    expressionForm read p stop (⟨.identifier word, q⟩ :: tokens) =
      ⟨(⟨String.ofList word, es, p⟩, rest), notes⟩ := by
  unfold expressionForm
  refine bind_run_quiet (name_run word q) ?_
  rw [← List.append_nil notes]
  exact bind_run hes rfl

end Complete

/-! ## Completeness -/

/-- The notes that a row earns by what lies too deep in it. -/
def deepNotes (levels depth : Nat) (ts : List PlacedToken) : Diagnostics :=
  (overflows (depth + levels) depth ts).map fun p => Problem.tooDeep.report p

theorem Balanced.deepNotes_append {ts : List PlacedToken} (h : Balanced ts) (levels depth : Nat)
    (rest : List PlacedToken) :
    deepNotes levels depth (ts ++ rest) =
      deepNotes levels depth ts ++ deepNotes levels depth rest := by
  simp only [deepNotes, h.overflows_append, List.map_append]

theorem Comma.deepNotes {sep : List PlacedToken} (h : Comma sep) (levels depth : Nat) :
    Tree.deepNotes levels depth sep = [] := by
  simp only [Tree.deepNotes, h.overflows, List.map_nil]

/-- What the parser makes of a row that stands for a part of a tree, at every level and
whatever follows. -/
def Phrase.Parsed (stop : Position) (ts : List PlacedToken) : Phrase → Prop
  | value tree => ∀ levels depth rest, Tree.value levels stop (ts ++ rest) =
      ⟨(tree.prune levels, rest), deepNotes levels depth ts⟩
  | entry e => ∀ levels depth rest, Tree.entry (Tree.value levels) stop (ts ++ rest) =
      ⟨(⟨e.key, e.value.prune levels, e.position⟩, rest), deepNotes levels depth ts⟩
  | entries es => ∀ levels depth rest, Ends rest →
      Tree.entries (Tree.value levels) stop (ts ++ rest) =
        ⟨(Entries.prune levels es, rest), deepNotes levels depth ts⟩
  | items trees => ∀ levels depth rest, Ends rest →
      Tree.items (Tree.value levels) stop (ts ++ rest) =
        ⟨(Trees.prune levels trees, rest), deepNotes levels depth ts⟩

/-- An entry before a row of entries is one more turn of the loop. -/
theorem entries_complete_more {stop : Position} {e : Entry} {es : List Entry}
    {ts sep us : List PlacedToken} (he : Derives (.entry e) ts) (hsep : Comma sep)
    (hes : Derives (.entries es) us) (ihe : (Phrase.entry e).Parsed stop ts)
    (ihes : (Phrase.entries es).Parsed stop us) :
    (Phrase.entries (e :: es)).Parsed stop (ts ++ (sep ++ us)) := by
  intro levels depth rest hrest
  obtain ⟨key, tree, p⟩ := e
  obtain ⟨eaten, heat⟩ := comma_run stop hsep (entries_no_comma hes hrest)
  obtain ⟨t, ts, rfl, hstart⟩ := he.entry_starts
  -- one turn of the loop takes the entry and the comma, and leaves the other entries
  have hone : (do let e ← entry (value levels); let _ ← eat .comma; return e : Parser Entry) stop
      (t :: (ts ++ (sep ++ (us ++ rest)))) =
        ⟨(⟨key, tree.prune levels, p⟩, us ++ rest), deepNotes levels depth (t :: ts)⟩ := by
    rw [← List.append_nil (deepNotes _ _ _)]
    refine bind_run (ihe levels depth (sep ++ (us ++ rest))) ?_
    exact bind_run_quiet heat rfl
  rw [he.balanced.deepNotes_append, hsep.balanced.deepNotes_append, hsep.deepNotes,
    List.nil_append]
  simp only [List.append_assoc, List.cons_append]
  refine many_run hstart hone ?_ (ihes levels depth rest hrest)
  simp only [List.length_cons, List.length_append]
  omega

/-- The same for an item before a row of items, which has no key to report. -/
theorem items_complete_more {stop : Position} {tree : Tree} {trees : List Tree}
    {ts sep us : List PlacedToken} (h : Derives (.value tree) ts) (hsep : Comma sep)
    (hitems : Derives (.items trees) us) (ih : (Phrase.value tree).Parsed stop ts)
    (ihs : (Phrase.items trees).Parsed stop us) :
    (Phrase.items (tree :: trees)).Parsed stop (ts ++ (sep ++ us)) := by
  intro levels depth rest hrest
  obtain ⟨eaten, heat⟩ := comma_run stop hsep (items_no_comma hitems hrest)
  obtain ⟨t, ts, rfl, hstart, hcolon⟩ := h.value_starts
  have hone : (do
      let e ← entry (value levels)
      if e.key.isSome then
        reportAt e.position .keyedItem
      let _ ← eat .comma
      return e.value : Parser Tree) stop (t :: (ts ++ (sep ++ (us ++ rest)))) =
        ⟨(tree.prune levels, us ++ rest), deepNotes levels depth (t :: ts)⟩ := by
    rw [← List.append_nil (deepNotes _ _ _)]
    refine bind_run (entry_plain hcolon (ih levels depth (sep ++ (us ++ rest)))) ?_
    exact bind_run_quiet heat rfl
  rw [h.balanced.deepNotes_append, hsep.balanced.deepNotes_append, hsep.deepNotes,
    List.nil_append]
  simp only [List.append_assoc, List.cons_append]
  refine many_run hstart hone ?_ (ihs levels depth rest hrest)
  simp only [List.length_cons, List.length_append]
  omega

theorem IsScalar.prune {t : Token} {tree : Tree} (h : IsScalar t tree) (levels : Nat) :
    tree.prune levels = tree := by
  cases h <;> rfl

/-- Without levels only the opening token is noted, whatever lies inside. -/
theorem value_complete_zero {stop : Position} {o c : PlacedToken} {inner : List PlacedToken}
    (ho : opens o.token = true) (hc : closes c.token = true) (hinner : Balanced inner) (depth : Nat)
    (rest : List PlacedToken) :
    value 0 stop ((o :: (inner ++ [c])) ++ rest) =
      ⟨(.invalid, rest), deepNotes 0 depth (o :: (inner ++ [c]))⟩ := by
  rw [List.cons_append, List.append_assoc, List.singleton_append, value_too_deep ho hc hinner,
    deepNotes, overflows_nested_zero ho hc hinner]
  rfl

/-- **Completeness.** On a derived row the parser returns the tree of the derivation, cut off
below its levels, and notes exactly the openings that lie too deep. -/
theorem Derives.parsed {phrase : Phrase} {ts : List PlacedToken} (h : Derives phrase ts)
    (stop : Position) : phrase.Parsed stop ts := by
  induction h with
  | scalar p h =>
    intro levels depth rest
    rw [deepNotes, overflows_other h.token.1 h.token.2.1]
    rw [h.prune]
    exact value_scalar_run h p levels
  | group name p q r hsep hes ih =>
    intro levels depth rest
    have hinner : Balanced (⟨.identifier name, q⟩ :: _) :=
      .other rfl rfl (hsep.balanced.append hes.balanced)
    rw [← List.append_assoc, ← List.cons_append]
    cases levels with
    | zero => exact value_complete_zero rfl rfl hinner depth rest
    | succ levels =>
      have hends : Ends (⟨Token.closeParen, r⟩ :: rest) := ends_closes rfl
      rw [deepNotes, overflows_nested rfl rfl hinner, overflows_other rfl rfl,
        hsep.balanced.overflows_append, hsep.overflows, List.nil_append]
      simp only [List.append_assoc, List.cons_append, List.nil_append]
      exact value_group_run rfl (groupForm_run name p q hsep (entries_no_comma hes hends)
        (ih levels (depth + 1) _ hends))
  | array p r hitems ih =>
    intro levels depth rest
    cases levels with
    | zero => exact value_complete_zero rfl rfl hitems.balanced depth rest
    | succ levels =>
      rw [deepNotes, overflows_nested rfl rfl hitems.balanced]
      simp only [List.append_assoc, List.cons_append, List.nil_append]
      exact value_array_run rfl (ih levels (depth + 1) _ (ends_closes rfl))
  | expression name p q r hes ih =>
    intro levels depth rest
    have hinner : Balanced (⟨.identifier name, q⟩ :: _) := .other rfl rfl hes.balanced
    rw [← List.cons_append]
    cases levels with
    | zero => exact value_complete_zero rfl rfl hinner depth rest
    | succ levels =>
      rw [deepNotes, overflows_nested rfl rfl hinner, overflows_other rfl rfl]
      simp only [List.append_assoc, List.cons_append, List.nil_append]
      exact value_expression_run rfl (expressionForm_run name p q
        (ih levels (depth + 1) _ (ends_closes rfl)))
  -- an entry is taken for a plain one because no value starts with a colon
  | plain h ih =>
    intro levels depth rest
    obtain ⟨t, us, heq, -, hcolon⟩ := h.value_starts
    cases heq
    exact entry_plain hcolon (ih levels depth rest)
  | keyed p q hkey h ih =>
    intro levels depth rest
    rw [deepNotes, overflows_other rfl rfl, overflows_other hkey.token.1 hkey.token.2]
    exact entry_keyed hkey p q (ih levels depth rest)
  | noEntries =>
    intro levels depth rest hrest
    exact many_stop fun t ht => (hrest t ht).1
  | moreEntries he hsep hes ihe ihes => exact entries_complete_more he hsep hes ihe ihes
  | noItems =>
    intro levels depth rest hrest
    exact many_stop fun t ht => (hrest t ht).1
  | moreItems h hsep hitems ih ihs => exact items_complete_more h hsep hitems ih ihs

/-- The same for a top-level group, which is not one of its own levels. -/
theorem top_complete {stop : Position} {form : Form} {ts : List PlacedToken}
    (h : Derives (.value (.group form)) ts) (rest : List PlacedToken) :
    top stop (ts ++ rest) =
      ⟨(some (form.prune maxDepth), rest), deepNotes (maxDepth + 1) 0 ts⟩ := by
  cases h with
  | scalar p h => cases h
  | @group es sep ts name p q r hsep hes =>
    -- the parentheses of the group count as one level in `overflows`, and as none for the parser
    have hinner : Balanced (⟨.identifier name, q⟩ :: (sep ++ ts)) :=
      .other rfl rfl (hsep.balanced.append hes.balanced)
    have hends : Ends (⟨Token.closeParen, r⟩ :: rest) := ends_closes rfl
    rw [← List.append_assoc, ← List.cons_append, deepNotes, overflows_nested rfl rfl hinner,
      overflows_other rfl rfl, hsep.balanced.overflows_append, hsep.overflows, List.nil_append]
    simp only [List.append_assoc, List.cons_append, List.nil_append]
    unfold top
    refine bind_run_quiet (position_apply stop _) ?_
    refine bind_run_quiet (peek_apply stop _) ?_
    refine bind_run_quiet (skip_apply stop _) ?_
    have hform := groupForm_run name p q hsep (entries_no_comma hes hends)
      (hes.parsed stop maxDepth 1 _ hends)
    rw [← List.append_nil (List.map _ _)]
    refine bind_run hform ?_
    exact bind_run_quiet (expect_run rfl) rfl

/-- The loop takes the groups of a derived row one by one, and goes on with what follows as at the
start. -/
theorem many_top_append {forms : List Form} {ts : List PlacedToken} (h : DerivesText forms ts)
    (stop : Position) (us : List PlacedToken) :
    many (fun _ => true) top stop (ts ++ us) =
      let more := many (fun _ => true) top stop us
      ⟨((forms.map fun form => some (form.prune maxDepth)) ++ more.value.1, more.value.2),
        deepNotes (maxDepth + 1) 0 ts ++ more.notes⟩ := by
  induction h with
  | done => rfl
  | @more form forms ts row hform hforms ih =>
    rw [hform.balanced.deepNotes_append, List.append_assoc]
    dsimp only
    rw [List.append_assoc]
    obtain ⟨t, ts, rfl, -, -⟩ := hform.value_starts
    rw [List.cons_append]
    refine many_run rfl (top_complete hform (row ++ us)) ?_ ih
    simp only [List.length_cons, List.length_append]
    omega

/-- All groups, as a function of the tokens ahead. -/
theorem tops_apply (stop : Position) (tokens : List PlacedToken) :
    tops stop tokens =
      let run := many (fun _ => true) top stop tokens
      ⟨(run.value.1.filterMap id, run.value.2), run.notes⟩ := by
  unfold tops
  rw [bind_apply]
  show Noted.mk _ (_ ++ []) = _
  rw [List.append_nil]
  rfl

/-- Derived groups are read in front of any tokens, which are read as if they stood alone. -/
theorem tops_append {forms : List Form} {ts : List PlacedToken} (h : DerivesText forms ts)
    (stop : Position) (us : List PlacedToken) :
    tops stop (ts ++ us) =
      ⟨(forms.map (Form.prune maxDepth) ++ (tops stop us).value.1, (tops stop us).value.2),
        deepNotes (maxDepth + 1) 0 ts ++ (tops stop us).notes⟩ := by
  rw [tops_apply, tops_apply, many_top_append h]
  dsimp only
  rw [List.filterMap_append, List.filterMap_map]
  show (⟨((forms.filterMap fun form => some (form.prune maxDepth)) ++ _, _), _⟩ :
    Noted Diagnostic _) = _
  rw [List.filterMap_eq_map']

/-- **Completeness for texts**: every group is found, cut off below the allowed depth, and the
notes are the openings below it. -/
theorem tops_complete {forms : List Form} {ts : List PlacedToken} (h : DerivesText forms ts)
    (stop : Position) :
    tops stop ts = ⟨(forms.map (Form.prune maxDepth), []), deepNotes (maxDepth + 1) 0 ts⟩ := by
  have hnil : tops stop [] = ⟨([], []), []⟩ := by
    rw [tops_apply, many_stop (by simp)]
    rfl
  rw [← List.append_nil ts, tops_append h, hnil]
  simp only [List.append_nil]

/-! ## The grammar is unambiguous -/

/-- Two values at the start of one row are the same value, and end at the same place: the
parser, given levels enough, returns both. -/
theorem Derives.value_unique {tree tree' : Tree} {ts ts' us us' : List PlacedToken}
    (h : Derives (.value tree) ts) (h' : Derives (.value tree') ts')
    (heq : ts ++ us = ts' ++ us') : tree = tree' ∧ us = us' := by
  -- with so many levels neither of the trees is cut off
  have hrun := h.parsed default (max tree.depth tree'.depth) 0 us
  have hrun' := h'.parsed default (max tree.depth tree'.depth) 0 us'
  rw [heq, hrun'] at hrun
  have hvalue := congrArg Noted.value hrun
  simp only [Prod.mk.injEq] at hvalue
  rw [Tree.prune_eq_self _ tree (Nat.le_max_left _ _),
    Tree.prune_eq_self _ tree' (Nat.le_max_right _ _)] at hvalue
  exact ⟨hvalue.1.symm, hvalue.2.symm⟩

/-- **The grammar is unambiguous**: a row of tokens stands for one list of forms only. -/
theorem DerivesText.unique {forms forms' : List Form} {ts : List PlacedToken}
    (h : DerivesText forms ts) (h' : DerivesText forms' ts) : forms = forms' := by
  induction h generalizing forms' with
  | done =>
    -- the row is made a variable, so that the cases of the other derivation can be taken
    generalize hts : ([] : List PlacedToken) = ts at h'
    cases h' with
    | done => rfl
    | more hform hforms =>
      obtain ⟨t, us, rfl, -, -⟩ := hform.value_starts
      cases hts
  | @more form forms ts us hform hforms ih =>
    generalize hts : ts ++ us = row at h'
    cases h' with
    | done =>
      obtain ⟨t, us, rfl, -, -⟩ := hform.value_starts
      cases hts
    | more hform' hforms' =>
      obtain ⟨hsame, rfl⟩ := hform.value_unique hform' hts
      cases hsame
      rw [ih hforms']

end DataLisp.Tree
