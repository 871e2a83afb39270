/-
The parser accepts nothing but what the grammar derives.

Whatever tokens a run without a note has taken are derived, as the tree that the run returns
and within its levels (`value_sound`). The induction is on the levels; a loop is treated
once, in `many_sound`, by what each of its turns takes.

That there is no note and that there is no error is the same, since everything the scanner
and the parser note is an error (`tops_notesErrors`). With completeness this gives the
acceptance of texts: a text is free of errors exactly when its spelling is and its tokens
are derived within the allowed depth.
-/
import DataLisp.Proofs.Completeness

set_option autoImplicit false

namespace DataLisp.Tree

open DataLisp.Tree.Parser

/-! ## Soundness: the parts -/

section Sound

variable {stop : Position} {tokens rest : List PlacedToken} {read : Parser Tree}

/-- A report leaves a note, whatever comes after it. -/
theorem report_not_quiet {α : Type} {problem : Problem} {f : Unit → Parser α} {a : α}
    (h : (report problem >>= f) stop tokens = ⟨(a, rest), []⟩) : False := by
  obtain ⟨_, _, hreport, -⟩ := bind_quiet h
  rw [report_apply] at hreport
  cases hreport

/-- A parser that looks at the next token goes on with what it says to that token. -/
theorem peek_quiet {α : Type} {f : Option Token → Parser α} {a : α}
    (h : (peek >>= f) stop tokens = ⟨(a, rest), []⟩) :
    ∃ next, f (tokens.head?.map PlacedToken.token) = next ∧ next stop tokens = ⟨(a, rest), []⟩ := by
  obtain ⟨got, mid, hpeek, hnext⟩ := bind_quiet h
  rw [peek_apply] at hpeek
  cases hpeek
  exact ⟨_, rfl, hnext⟩

/-- Passing over a token leaves the tokens after it, and never leaves a note. -/
theorem skip_quiet {u : Unit} (h : skip stop tokens = ⟨(u, rest), []⟩) : rest = tokens.tail := by
  rw [skip_apply] at h
  cases h
  rfl

theorem pure_quiet {α : Type} {a b : α}
    (h : (pure a : Parser α) stop tokens = ⟨(b, rest), []⟩) : a = b ∧ tokens = rest := by
  cases h
  exact ⟨rfl, rfl⟩

/-- A parser that takes the token it has just looked at takes that token and no other. -/
theorem skip_pure_quiet {α : Type} {a b : α} {token : Token}
    (hhead : tokens.head?.map PlacedToken.token = some token)
    (h : (do skip; return a : Parser α) stop tokens = ⟨(b, rest), []⟩) :
    a = b ∧ ∃ q, tokens = ⟨token, q⟩ :: rest := by
  obtain ⟨_, mid, hskip, h⟩ := bind_quiet h
  obtain ⟨rfl, rfl⟩ := pure_quiet h
  rw [skip_quiet hskip]
  exact ⟨rfl, head_token hhead⟩

/-- The name of a form is a word, since anything else is reported. -/
theorem name_quiet {text : String} (h : name stop tokens = ⟨(text, rest), []⟩) :
    ∃ word q, tokens = ⟨.identifier word, q⟩ :: rest ∧ text = String.ofList word := by
  unfold name at h
  obtain ⟨next, hnext, h⟩ := peek_quiet h
  split at hnext
  · rename_i word hhead
    subst hnext
    obtain ⟨rfl, q, htokens⟩ := skip_pure_quiet hhead h
    exact ⟨word, q, htokens, rfl⟩
  · subst hnext
    exact (report_not_quiet h).elim

/-- A key is a word or an unsigned integer. -/
theorem key_quiet {k : Option String} (h : key stop tokens = ⟨(k, rest), []⟩) :
    ∃ t text q, tokens = ⟨t, q⟩ :: rest ∧ IsKey t text ∧ k = some text := by
  unfold key at h
  obtain ⟨next, hnext, h⟩ := peek_quiet h
  split at hnext
  · rename_i word hhead
    subst hnext
    obtain ⟨rfl, q, htokens⟩ := skip_pure_quiet hhead h
    exact ⟨_, _, q, htokens, .word word, rfl⟩
  · rename_i n hhead
    split at hnext
    · rename_i hunsigned
      subst hnext
      obtain ⟨rfl, q, htokens⟩ := skip_pure_quiet hhead h
      exact ⟨_, _, q, htokens, .number hunsigned, rfl⟩
    · subst hnext
      exact (report_not_quiet h).elim
  · subst hnext
    exact (report_not_quiet h).elim

/-- A scalar is what its token writes; an integer out of range is reported. -/
theorem scalar_quiet {tree : Tree} (h : scalar stop tokens = ⟨(tree, rest), []⟩) :
    ∃ t q, tokens = ⟨t, q⟩ :: rest ∧ IsScalar t tree := by
  unfold scalar at h
  obtain ⟨next, hnext, h⟩ := peek_quiet h
  split at hnext
  · rename_i n hhead
    split at hnext
    · rename_i i hi
      subst hnext
      obtain ⟨rfl, q, htokens⟩ := skip_pure_quiet hhead h
      exact ⟨_, q, htokens, .integer hi⟩
    · subst hnext
      exact (report_not_quiet h).elim
  · rename_i n hhead
    subst hnext
    obtain ⟨rfl, q, htokens⟩ := skip_pure_quiet hhead h
    exact ⟨_, q, htokens, .float n⟩
  · rename_i content hhead
    subst hnext
    obtain ⟨rfl, q, htokens⟩ := skip_pure_quiet hhead h
    exact ⟨_, q, htokens, .string content⟩
  · rename_i b hhead
    subst hnext
    obtain ⟨rfl, q, htokens⟩ := skip_pure_quiet hhead h
    exact ⟨_, q, htokens, .bool b⟩
  · rename_i hhead
    subst hnext
    obtain ⟨rfl, q, htokens⟩ := skip_pure_quiet hhead h
    exact ⟨_, q, htokens, .null⟩
  · subst hnext
    exact (report_not_quiet h).elim

/-- Whether a comma was there or not, what was taken is an optional comma. -/
theorem comma_quiet {eaten : Bool} (h : eat .comma stop tokens = ⟨(eaten, rest), []⟩) :
    ∃ sep, tokens = sep ++ rest ∧ Comma sep := by
  rcases eat_quiet h with ⟨-, p, htokens⟩ | ⟨-, htokens⟩
  · exact ⟨[⟨.comma, p⟩], htokens, .present p⟩
  · exact ⟨[], htokens, .absent⟩

/-- A parser of values that is right about its runs without a note, within a depth. -/
def Reads (read : Parser Tree) (levels : Nat) : Prop :=
  ∀ {stop tokens tree rest}, read stop tokens = ⟨(tree, rest), []⟩ →
    ∃ ts, tokens = ts ++ rest ∧ Derives (.value tree) ts ∧ tree.depth ≤ levels

/-- An entry without a note is derived. -/
theorem entry_quiet {levels : Nat} (hread : Reads read levels) {e : Entry}
    (h : entry read stop tokens = ⟨(e, rest), []⟩) :
    ∃ ts, tokens = ts ++ rest ∧ Derives (.entry e) ts ∧ e.value.depth ≤ levels ∧
      (e.key = none → Derives (.value e.value) ts) := by
  unfold entry at h
  obtain ⟨p, mid, hposition, h⟩ := bind_quiet h
  rw [position_apply] at hposition
  cases hposition
  obtain ⟨eaten, mid, heat, h⟩ := bind_quiet h
  rcases eat_quiet heat with ⟨rfl, p, rfl⟩ | ⟨rfl, rfl⟩
  · obtain ⟨k, mid, hkey, h⟩ := bind_quiet h
    obtain ⟨t, text, q, rfl, hiskey, rfl⟩ := key_quiet hkey
    obtain ⟨tree, mid, hvalue, h⟩ := bind_quiet h
    obtain ⟨rfl, rfl⟩ := pure_quiet h
    obtain ⟨ts, rfl, hderives, hdepth⟩ := hread hvalue
    exact ⟨_, rfl, .keyed p q hiskey hderives, hdepth, by simp⟩
  · obtain ⟨k, mid, hkey, h⟩ := bind_quiet h
    obtain ⟨rfl, rfl⟩ := pure_quiet hkey
    obtain ⟨tree, mid, hvalue, h⟩ := bind_quiet h
    obtain ⟨rfl, rfl⟩ := pure_quiet h
    obtain ⟨ts, rfl, hderives, hdepth⟩ := hread hvalue
    obtain ⟨t, us, rfl, -, -⟩ := hderives.value_starts
    exact ⟨t :: us, rfl, .plain hderives, hdepth, fun _ => hderives⟩

/-- A row of entries is derived, with the commas that its turns have taken. -/
theorem entries_quiet {levels : Nat} (hread : Reads read levels) {es : List Entry}
    (h : entries read stop tokens = ⟨(es, rest), []⟩) :
    ∃ ts, tokens = ts ++ rest ∧ Derives (.entries es) ts ∧ Entries.depth es ≤ levels := by
  have hloop := many_sound (P := fun es ts => Derives (.entries es) ts ∧ Entries.depth es ≤ levels)
    ⟨.noEntries, Nat.zero_le _⟩ ?_ h
  · obtain ⟨ts, htokens, hts, -⟩ := hloop
    exact ⟨ts, htokens, hts⟩
  -- a turn is an entry and an optional comma, and may stand before any row of entries
  · intro tokens e rest _ hone
    obtain ⟨e, mid, hentry, hone⟩ := bind_quiet hone
    obtain ⟨eaten, mid, heat, hone⟩ := bind_quiet hone
    obtain ⟨rfl, rfl⟩ := pure_quiet hone
    obtain ⟨ts, rfl, hderives, hdepth, -⟩ := entry_quiet hread hentry
    obtain ⟨sep, rfl, hsep⟩ := comma_quiet heat
    obtain ⟨t, ts, rfl, -⟩ := hderives.entry_starts
    refine ⟨t :: ts ++ sep, by rw [List.append_assoc], by simp, ?_⟩
    intro es us hes
    rw [List.append_assoc]
    obtain ⟨key, tree, p⟩ := e
    exact ⟨.moreEntries hderives hsep hes.1, Nat.max_le.mpr ⟨hdepth, hes.2⟩⟩

/-- A row of items is derived. Each is an entry without a key, and such an entry is a value. -/
theorem items_quiet {levels : Nat} (hread : Reads read levels) {trees : List Tree}
    (h : items read stop tokens = ⟨(trees, rest), []⟩) :
    ∃ ts, tokens = ts ++ rest ∧ Derives (.items trees) ts ∧ Trees.depth trees ≤ levels := by
  have hloop := many_sound (P := fun es ts => Derives (.items es) ts ∧ Trees.depth es ≤ levels)
    ⟨.noItems, Nat.zero_le _⟩ ?_ h
  · obtain ⟨ts, htokens, hts, -⟩ := hloop
    exact ⟨ts, htokens, hts⟩
  · intro tokens tree rest _ hturn
    obtain ⟨e, mid, hentry, hone⟩ := bind_quiet hturn
    obtain ⟨ts, rfl, hderives, hdepth, hitem⟩ := entry_quiet hread hentry
    -- an item with a key is reported, so without a note the branch is the other one
    obtain ⟨next, hnext, hone⟩ : ∃ next : Parser Tree,
        _ = next ∧ next stop mid = ⟨(tree, rest), []⟩ := ⟨_, rfl, hone⟩
    dsimp only at hnext
    split at hnext
    · subst hnext
      obtain ⟨_, _, hreport, -⟩ := bind_quiet hone
      cases hreport
    subst hnext
    rename_i hkey
    rw [Option.not_isSome_iff_eq_none] at hkey
    obtain ⟨eaten, mid, heat, hone⟩ := bind_quiet hone
    obtain ⟨rfl, rfl⟩ := pure_quiet hone
    obtain ⟨sep, rfl, hsep⟩ := comma_quiet heat
    obtain ⟨t, ts, rfl, -⟩ := hderives.entry_starts
    refine ⟨t :: ts ++ sep, by rw [List.append_assoc], by simp, ?_⟩
    intro trees us htrees
    rw [List.append_assoc]
    exact ⟨.moreItems (hitem hkey) hsep htrees.1, Nat.max_le.mpr ⟨hdepth, htrees.2⟩⟩

/-- The inside of a group: its name, a comma that may be missing, and its entries. -/
theorem groupForm_quiet {levels : Nat} (hread : Reads read levels) {p : Position} {form : Form}
    (h : groupForm read p stop tokens = ⟨(form, rest), []⟩) :
    ∃ word q sep es ts, tokens = ⟨.identifier word, q⟩ :: (sep ++ (ts ++ rest)) ∧ Comma sep ∧
      Derives (.entries es) ts ∧ Entries.depth es ≤ levels ∧
      form = ⟨String.ofList word, es, p⟩ := by
  unfold groupForm at h
  obtain ⟨text, mid, hname, hcomma⟩ := bind_quiet h
  obtain ⟨word, q, rfl, rfl⟩ := name_quiet hname
  obtain ⟨eaten, mid, heat, hentries⟩ := bind_quiet hcomma
  obtain ⟨sep, rfl, hsep⟩ := comma_quiet heat
  obtain ⟨es, mid, hes, hresult⟩ := bind_quiet hentries
  obtain ⟨ts, rfl, hderives, hdepth⟩ := entries_quiet hread hes
  obtain ⟨rfl, rfl⟩ := pure_quiet hresult
  exact ⟨word, q, sep, es, ts, rfl, hsep, hderives, hdepth, rfl⟩

/-- The inside of an expression, which has no comma after the name. -/
theorem expressionForm_quiet {levels : Nat} (hread : Reads read levels) {p : Position} {form : Form}
    (h : expressionForm read p stop tokens = ⟨(form, rest), []⟩) :
    ∃ word q es ts, tokens = ⟨.identifier word, q⟩ :: (ts ++ rest) ∧
      Derives (.entries es) ts ∧ Entries.depth es ≤ levels ∧
      form = ⟨String.ofList word, es, p⟩ := by
  unfold expressionForm at h
  obtain ⟨text, mid, hname, hentries⟩ := bind_quiet h
  obtain ⟨word, q, rfl, rfl⟩ := name_quiet hname
  obtain ⟨es, mid, hes, hresult⟩ := bind_quiet hentries
  obtain ⟨ts, rfl, hderives, hdepth⟩ := entries_quiet hread hes
  obtain ⟨rfl, rfl⟩ := pure_quiet hresult
  exact ⟨word, q, es, ts, rfl, hderives, hdepth, rfl⟩

/-- A group in parentheses, once its opening token is skipped. -/
theorem group_quiet {α : Type} {levels : Nat} (hread : Reads read levels) {p : Position}
    {result : Form → α} {a : α}
    (hhead : tokens.head?.map PlacedToken.token = some .openParen)
    (hp : (tokens.head?.map PlacedToken.position).getD stop = p)
    (h : (do skip; let form ← groupForm read p; expect .closeParen; return result form : Parser α)
      stop tokens = ⟨(a, rest), []⟩) :
    ∃ form ts, tokens = ts ++ rest ∧ Derives (.value (.group form)) ts ∧ form.depth ≤ levels ∧
      a = result form := by
  obtain ⟨q, htokens⟩ := head_token hhead
  rw [htokens] at hp
  cases hp
  obtain ⟨_, mid, hskip, hrun⟩ := bind_quiet h
  rw [skip_quiet hskip] at hrun
  obtain ⟨form, mid, hform, hclose⟩ := bind_quiet hrun
  obtain ⟨word, q', sep, es, ts, hinside, hsep, hderives, hdepth, rfl⟩ :=
    groupForm_quiet hread hform
  obtain ⟨_, last, hexpect, hresult⟩ := bind_quiet hclose
  obtain ⟨r, rfl⟩ := expect_quiet hexpect
  obtain ⟨rfl, rfl⟩ := pure_quiet hresult
  refine ⟨_, _, ?_, .group word q q' r hsep hderives, hdepth, rfl⟩
  rw [htokens, hinside]
  simp only [List.cons_append, List.append_assoc, List.nil_append]

/-- An array in brackets, which takes one level. -/
theorem array_quiet {levels : Nat} (hread : Reads read levels) {tree : Tree}
    (hhead : tokens.head?.map PlacedToken.token = some .openBracket)
    (h : (do skip; let trees ← items read; expect .closeBracket; return .array trees : Parser Tree)
      stop tokens = ⟨(tree, rest), []⟩) :
    ∃ ts, tokens = ts ++ rest ∧ Derives (.value tree) ts ∧ tree.depth ≤ levels + 1 := by
  obtain ⟨q, htokens⟩ := head_token hhead
  obtain ⟨_, mid, hskip, hinside⟩ := bind_quiet h
  rw [skip_quiet hskip] at hinside
  obtain ⟨trees, mid, hitems, hclose⟩ := bind_quiet hinside
  obtain ⟨ts, htail, hderives, hdepth⟩ := items_quiet hread hitems
  obtain ⟨_, last, hexpect, hresult⟩ := bind_quiet hclose
  obtain ⟨r, rfl⟩ := expect_quiet hexpect
  obtain ⟨rfl, rfl⟩ := pure_quiet hresult
  refine ⟨_, ?_, .array q r hderives, Nat.succ_le_succ hdepth⟩
  rw [htokens, htail]
  simp only [List.cons_append, List.append_assoc, List.nil_append]

/-- An expression up to its closing parenthesis, which takes one level too. -/
theorem expression_quiet {levels : Nat} (hread : Reads read levels) {p : Position} {tree : Tree}
    (hhead : tokens.head?.map PlacedToken.token = some .openExpression)
    (hp : (tokens.head?.map PlacedToken.position).getD stop = p)
    (h : (do
      skip
      let form ← expressionForm read p
      expect .closeParen
      return .expression form : Parser Tree) stop tokens = ⟨(tree, rest), []⟩) :
    ∃ ts, tokens = ts ++ rest ∧ Derives (.value tree) ts ∧ tree.depth ≤ levels + 1 := by
  obtain ⟨q, htokens⟩ := head_token hhead
  rw [htokens] at hp
  cases hp
  obtain ⟨_, mid, hskip, hinside⟩ := bind_quiet h
  rw [skip_quiet hskip] at hinside
  obtain ⟨form, mid, hform, hclose⟩ := bind_quiet hinside
  obtain ⟨word, q', es, ts, htail, hderives, hdepth, rfl⟩ := expressionForm_quiet hread hform
  obtain ⟨_, last, hexpect, hresult⟩ := bind_quiet hclose
  obtain ⟨r, rfl⟩ := expect_quiet hexpect
  obtain ⟨rfl, rfl⟩ := pure_quiet hresult
  refine ⟨_, ?_, .expression word q q' r hderives, Nat.succ_le_succ hdepth⟩
  rw [htokens, htail]
  simp only [List.cons_append, List.append_assoc, List.nil_append]

/-- **Soundness.** What a run without a note has taken is derived, as the tree that the run
returns, and within its levels. -/
theorem value_sound (levels : Nat) : Reads (value levels) levels := by
  induction levels with
  | zero =>
    -- an opening token is reported here, so only a scalar is left
    intro stop tokens tree rest h
    unfold value at h
    obtain ⟨next, hnext, h⟩ := peek_quiet h
    split at hnext
    · subst hnext
      exact (report_not_quiet h).elim
    · subst hnext
      obtain ⟨t, q, rfl, hscalar⟩ := scalar_quiet h
      refine ⟨[⟨t, q⟩], rfl, .scalar q hscalar, ?_⟩
      cases hscalar <;> exact Nat.le_refl _
  | succ levels ih =>
    intro stop tokens tree rest h
    unfold value at h
    obtain ⟨p, mid, hposition, hvalue⟩ := bind_quiet h
    rw [position_apply] at hposition
    cases hposition
    obtain ⟨next, hnext, hrun⟩ := peek_quiet hvalue
    split at hnext
    · rename_i hhead
      subst hnext
      obtain ⟨form, ts, htokens, hderives, hdepth, rfl⟩ := group_quiet ih hhead rfl hrun
      exact ⟨ts, htokens, hderives, Nat.succ_le_succ hdepth⟩
    · rename_i hhead
      subst hnext
      exact array_quiet ih hhead hrun
    · rename_i hhead
      subst hnext
      exact expression_quiet ih hhead rfl hrun
    · subst hnext
      obtain ⟨t, q, rfl, hscalar⟩ := scalar_quiet hrun
      refine ⟨[⟨t, q⟩], rfl, .scalar q hscalar, ?_⟩
      cases hscalar <;> exact Nat.zero_le _

/-- A turn at the top either takes a whole group or reports the token that starts none. -/
theorem top_quiet {result : Option Form} (hne : tokens ≠ [])
    (h : top stop tokens = ⟨(result, rest), []⟩) :
    ∃ form ts, tokens = ts ++ rest ∧ Derives (.value (.group form)) ts ∧ form.depth ≤ maxDepth ∧
      result = some form := by
  unfold top at h
  obtain ⟨p, mid, hposition, hpeek⟩ := bind_quiet h
  rw [position_apply] at hposition
  cases hposition
  obtain ⟨next, hnext, hrun⟩ := peek_quiet hpeek
  split at hnext
  · rename_i hhead
    subst hnext
    exact group_quiet (value_sound maxDepth) hhead rfl hrun
  · subst hnext
    exact (report_not_quiet hrun).elim
  · rename_i hhead
    cases tokens with
    | nil => exact absurd rfl hne
    | cons t rest => cases hhead

/-- **Soundness for texts**: without a note all tokens are taken, they are derived, and
nothing lies too deep in any of the forms. -/
theorem tops_sound {forms : List Form} (h : tops stop tokens = ⟨(forms, rest), []⟩) :
    DerivesText forms tokens ∧ ∀ form ∈ forms, form.depth ≤ maxDepth := by
  unfold tops at h
  obtain ⟨results, mid, hloop, hresult⟩ := bind_quiet h
  obtain ⟨rfl, rfl⟩ := pure_quiet hresult
  have htaken := many_sound (P := fun results ts => DerivesText (results.filterMap id) ts ∧
    ∀ form ∈ results.filterMap id, form.depth ≤ maxDepth) ⟨.done, by simp⟩ ?_ hloop
  · obtain ⟨ts, htokens, ⟨hderives, hdepth⟩, hstop⟩ := htaken
    -- the loop goes on at every token, so it can only have stopped at the end
    have hrest : mid = [] := by
      cases mid with
      | nil => rfl
      | cons t rest => exact absurd (hstop t rfl) (by decide)
    rw [hrest, List.append_nil] at htokens
    exact ⟨htokens ▸ hderives, hdepth⟩
  · intro tokens result rest hne hturn
    obtain ⟨form, ts, rfl, hderives, hdepth, rfl⟩ := top_quiet hne hturn
    obtain ⟨t, ts, rfl, -, -⟩ := hderives.value_starts
    refine ⟨t :: ts, rfl, by simp, ?_⟩
    intro results us hus
    rw [List.filterMap_cons_some (f := id) rfl]
    exact ⟨.more hderives hus.1, List.forall_mem_cons.mpr ⟨hdepth, hus.2⟩⟩

end Sound

/-! ## Everything that is noted is an error -/

/-- All notes of a parser are errors, whatever it runs on. -/
def NotesErrors {α : Type} (x : Parser α) : Prop :=
  ∀ stop tokens, ∀ d ∈ (x stop tokens).notes, d.isError = true

namespace NotesErrors

variable {α β : Type}

theorem pure (a : α) : NotesErrors (Pure.pure a : Parser α) := by
  intro stop tokens d hd
  cases hd

/-- A sequence has the notes of its steps. -/
theorem bind {x : Parser α} {f : α → Parser β} (hx : NotesErrors x) (hf : ∀ a, NotesErrors (f a)) :
    NotesErrors (x >>= f) := by
  intro stop tokens d hd
  rw [bind_apply, Noted.notes_bind] at hd
  rcases List.mem_append.mp hd with hd | hd
  · exact hx _ _ d hd
  · exact hf _ _ _ d hd

theorem peek : NotesErrors Parser.peek := by
  intro stop tokens d hd
  cases hd

theorem position : NotesErrors Parser.position := by
  intro stop tokens d hd
  rw [position_apply] at hd
  cases hd

theorem skip : NotesErrors Parser.skip := by
  intro stop tokens d hd
  cases hd

/-- Every problem is reported as an error. -/
theorem reportAt (p : Position) (problem : Problem) : NotesErrors (Parser.reportAt p problem) := by
  intro stop tokens d hd
  rw [List.mem_singleton.mp hd]
  rfl

theorem report (problem : Problem) : NotesErrors (Parser.report problem) :=
  position.bind fun p => reportAt p problem

theorem eat (wanted : Token) : NotesErrors (Parser.eat wanted) := by
  refine peek.bind fun got => ?_
  split
  · exact skip.bind fun _ => pure true
  · exact pure false

theorem expect (wanted : Token) : NotesErrors (Parser.expect wanted) := by
  refine (eat wanted).bind fun eaten => ?_
  split
  · exact pure ()
  · exact peek.bind fun got => report _

/-- A loop has the notes of its turns. -/
theorem many {starts : Token → Bool} {x : Parser α} (hx : NotesErrors x) :
    NotesErrors (Parser.many starts x) := by
  intro stop tokens
  induction hn : tokens.length using Nat.strong_induction_on generalizing tokens with
  | _ n ih =>
    subst hn
    -- a turn that takes nothing ends the loop, and its notes are those of the one turn
    rw [Parser.many]
    split
    · dsimp only
      split
      · rename_i hshort
        intro d hd
        rcases List.mem_append.mp hd with hd | hd
        · exact hx stop tokens d hd
        · exact ih _ hshort _ rfl d hd
      · exact hx stop tokens
    · intro d hd
      cases hd

end NotesErrors

theorem name_notesErrors : NotesErrors name := by
  refine NotesErrors.peek.bind fun got => ?_
  split
  · exact NotesErrors.skip.bind fun _ => .pure _
  · exact (NotesErrors.report _).bind fun _ => .pure _

theorem key_notesErrors : NotesErrors key := by
  refine NotesErrors.peek.bind fun got => ?_
  split
  · exact NotesErrors.skip.bind fun _ => .pure _
  · split
    · exact NotesErrors.skip.bind fun _ => .pure _
    · exact (NotesErrors.report _).bind fun _ => NotesErrors.skip.bind fun _ => .pure _
  · exact (NotesErrors.report _).bind fun _ => .pure _

theorem scalar_notesErrors : NotesErrors scalar := by
  refine NotesErrors.peek.bind fun got => ?_
  split
  · split
    · exact NotesErrors.skip.bind fun _ => .pure _
    · exact (NotesErrors.report _).bind fun _ => NotesErrors.skip.bind fun _ => .pure _
  · exact NotesErrors.skip.bind fun _ => .pure _
  · exact NotesErrors.skip.bind fun _ => .pure _
  · exact NotesErrors.skip.bind fun _ => .pure _
  · exact NotesErrors.skip.bind fun _ => .pure _
  · exact (NotesErrors.report _).bind fun _ => .pure _

section NotesErrors

variable {read : Parser Tree} (hread : NotesErrors read)
include hread

theorem entry_notesErrors : NotesErrors (entry read) := by
  refine NotesErrors.position.bind fun p => (NotesErrors.eat _).bind fun eaten => ?_
  -- what follows is the same with and without a key
  have hvalue : ∀ key : Option String, NotesErrors (do
      let value ← read
      return (⟨key, value, p⟩ : Entry)) := fun key => hread.bind fun _ => .pure _
  dsimp only
  split
  · exact key_notesErrors.bind hvalue
  · exact (NotesErrors.pure none).bind hvalue

theorem entries_notesErrors : NotesErrors (entries read) :=
  .many ((entry_notesErrors hread).bind fun _ => (NotesErrors.eat _).bind fun _ => .pure _)

theorem items_notesErrors : NotesErrors (items read) := by
  refine .many ((entry_notesErrors hread).bind fun e => ?_)
  have hcomma : NotesErrors (do let _ ← eat .comma; return e.value : Parser Tree) :=
    (NotesErrors.eat _).bind fun _ => .pure _
  dsimp only
  split
  · exact (NotesErrors.reportAt _ _).bind fun _ => hcomma
  · exact hcomma

theorem groupForm_notesErrors (p : Position) : NotesErrors (groupForm read p) :=
  name_notesErrors.bind fun _ => (NotesErrors.eat _).bind fun _ =>
    (entries_notesErrors hread).bind fun _ => .pure _

theorem expressionForm_notesErrors (p : Position) : NotesErrors (expressionForm read p) :=
  name_notesErrors.bind fun _ => (entries_notesErrors hread).bind fun _ => .pure _

end NotesErrors

/-- No level of a value adds a note of another kind. -/
theorem value_notesErrors (levels : Nat) : NotesErrors (value levels) := by
  induction levels with
  | zero =>
    refine NotesErrors.peek.bind fun got => ?_
    split
    · refine (NotesErrors.report _).bind fun _ => .bind ?_ fun _ => .pure _
      intro stop tokens d hd
      cases hd
    · exact scalar_notesErrors
  | succ levels ih =>
    refine NotesErrors.position.bind fun p => NotesErrors.peek.bind fun got => ?_
    split
    · exact NotesErrors.skip.bind fun _ => (groupForm_notesErrors ih p).bind fun _ =>
        (NotesErrors.expect _).bind fun _ => .pure _
    · exact NotesErrors.skip.bind fun _ => (items_notesErrors ih).bind fun _ =>
        (NotesErrors.expect _).bind fun _ => .pure _
    · exact NotesErrors.skip.bind fun _ => (expressionForm_notesErrors ih p).bind fun _ =>
        (NotesErrors.expect _).bind fun _ => .pure _
    · exact scalar_notesErrors

/-- **Whatever the parser notes is an error.** -/
theorem tops_notesErrors : NotesErrors tops := by
  refine .bind (.many ?_) fun _ => .pure _
  refine NotesErrors.position.bind fun p => NotesErrors.peek.bind fun got => ?_
  split
  · exact NotesErrors.skip.bind fun _ => (groupForm_notesErrors (value_notesErrors _) p).bind
      fun _ => (NotesErrors.expect _).bind fun _ => .pure _
  · exact (NotesErrors.report _).bind fun _ => NotesErrors.skip.bind fun _ => .pure _
  · exact .pure _

end DataLisp.Tree

namespace DataLisp

/-! ## Texts -/

/-- Among errors there is none only if there is nothing. -/
theorem Diagnostics.hasErrors_eq_false_iff {ds : Diagnostics} (h : ∀ d ∈ ds, d.isError = true) :
    ds.hasErrors = false ↔ ds = [] := by
  cases ds with
  | nil => exact ⟨fun _ => rfl, fun _ => rfl⟩
  | cons d ds =>
    refine ⟨?_, fun hnil => absurd hnil (List.cons_ne_nil d ds)⟩
    intro hfalse
    rw [Diagnostics.hasErrors, List.any_cons, h d List.mem_cons_self, Bool.true_or] at hfalse
    cases hfalse

namespace Parsed

open DataLisp.Tree

/-- The diagnostics of a text are those of its spelling and of its tokens, all of them errors. -/
theorem diagnostics_isError (text : String) :
    ∀ d ∈ (Parsed.ofText text).diagnostics, d.isError = true := by
  intro d hd
  rcases List.mem_append.mp hd with hd | hd
  · exact (Token.scan_sound text).2 d hd
  · exact tops_notesErrors _ _ d hd

/-- **Completeness, from the text on**: where the spelling is right and the tokens are derived,
the forms are those of the derivation, cut off below the allowed depth, and only what was
cut off is reported. -/
theorem complete {text : String} {forms : List Form}
    (hspelling : (Token.scan text).problems = [])
    (hderives : DerivesText forms (Token.scan text).tokens) :
    Parsed.ofText text =
      ⟨forms.map (Form.prune maxDepth), deepNotes (maxDepth + 1) 0 (Token.scan text).tokens⟩ := by
  simp only [Parsed.ofText, tops_complete hderives, hspelling, List.nil_append]

/-- How deep the forms of a text nest decides whether anything is reported. -/
theorem deepNotes_eq_nil_iff {forms : List Form} {ts : List PlacedToken}
    (h : DerivesText forms ts) :
    deepNotes (maxDepth + 1) 0 ts = [] ↔ ∀ form ∈ forms, form.depth ≤ maxDepth := by
  induction h with
  | done => exact ⟨fun _ _ h => (List.not_mem_nil h).elim, fun _ => rfl⟩
  | more hform hforms ih =>
    have hfirst := hform.overflows_eq_nil_iff (maxDepth + 1) 0
    rw [hform.balanced.deepNotes_append, List.append_eq_nil_iff, ih, deepNotes, List.map_eq_nil_iff,
      hfirst, List.forall_mem_cons]
    exact and_congr_left fun _ => Nat.add_le_add_iff_right

/-- A text whose forms are no deeper than allowed gives just these forms. -/
theorem complete_shallow {text : String} {forms : List Form}
    (hspelling : (Token.scan text).problems = [])
    (hderives : DerivesText forms (Token.scan text).tokens)
    (hdepth : ∀ form ∈ forms, form.depth ≤ maxDepth) : Parsed.ofText text = ⟨forms, []⟩ := by
  rw [complete hspelling hderives, Form.map_prune_eq_self hdepth,
    (deepNotes_eq_nil_iff hderives).mpr hdepth]

/-- **Soundness, from the text on.** -/
theorem sound {text : String} (h : (Parsed.ofText text).diagnostics.hasErrors = false) :
    (Token.scan text).problems = [] ∧
      DerivesText (Parsed.ofText text).forms (Token.scan text).tokens ∧
      ∀ form ∈ (Parsed.ofText text).forms, form.depth ≤ maxDepth := by
  rw [Diagnostics.hasErrors_eq_false_iff (diagnostics_isError text)] at h
  obtain ⟨hspelling, hnotes⟩ := List.append_eq_nil_iff.mp h
  have hrun : tops (Token.scan text).stop (Token.scan text).tokens =
      ⟨((Parsed.ofText text).forms, (tops (Token.scan text).stop (Token.scan text).tokens).value.2),
        []⟩ := by
    rw [← hnotes]
    rfl
  exact ⟨hspelling, tops_sound hrun⟩

/-- **The parser accepts exactly its grammar.** A text has no error if and only if its
spelling has none and its tokens are derived, with nothing deeper than allowed. The forms
that the parser then returns are those of the derivation, which is the only one, and
neither an invalid value nor an empty name is among them. -/
theorem accepts_exactly_grammar (text : String) :
    ((Parsed.ofText text).diagnostics.hasErrors = false ↔
      (Token.scan text).problems.hasErrors = false ∧
        ∃ forms, DerivesText forms (Token.scan text).tokens ∧
          ∀ form ∈ forms, form.depth ≤ maxDepth) ∧
    ((Parsed.ofText text).diagnostics.hasErrors = false →
      (∀ forms, DerivesText forms (Token.scan text).tokens ↔ forms = (Parsed.ofText text).forms) ∧
      ∀ form ∈ (Parsed.ofText text).forms, form.Clean) := by
  have hscan := Token.scan_sound text
  refine ⟨⟨?_, ?_⟩, ?_⟩
  · intro h
    obtain ⟨hspelling, hderives, hdepth⟩ := sound h
    exact ⟨by rw [hspelling]; rfl, _, hderives, hdepth⟩
  · rintro ⟨hspelling, forms, hderives, hdepth⟩
    rw [Diagnostics.hasErrors_eq_false_iff hscan.2] at hspelling
    rw [complete_shallow hspelling hderives hdepth]
    rfl
  · intro h
    obtain ⟨-, hderives, -⟩ := sound h
    refine ⟨?_, hderives.clean hscan.1⟩
    intro forms
    refine ⟨fun hforms => hforms.unique hderives, ?_⟩
    rintro rfl
    exact hderives

/-- A text with a group, an array and an expression inside a group. -/
theorem accepts_exactly_grammar_nested :
    (Parsed.ofText "(a :b [1, (c)] $(if true 2))").diagnostics.hasErrors = false ∧
      ∀ form ∈ (Parsed.ofText "(a :b [1, (c)] $(if true 2))").forms, form.Clean :=
  have hquiet : (Parsed.ofText "(a :b [1, (c)] $(if true 2))").diagnostics.hasErrors = false := by
    decide +kernel
  ⟨hquiet, ((accepts_exactly_grammar "(a :b [1, (c)] $(if true 2))").2 hquiet).2⟩

end Parsed

end DataLisp
