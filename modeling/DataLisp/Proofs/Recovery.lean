/-
Every row of tokens has a tree.

The parser stops at no fault, so it finds a tree for whatever it is given. `Spans` says which: it is
the grammar with everything that the parser puts up with, where a name, a key, a value or a closing
token may be missing, a number may be too great, and what lies too deep is taken without a look
inside. Each part of a tree spans a row of tokens, and where a form or an entry has a position, that
is the position of the first of them.

What a single step of a parser takes is composed to what the whole parser takes (`Takes`), with one
rule for each step and one for loops. A turn of a loop begins at a token that announces an entry,
and it always takes that token, if nothing else (`entry_takes`): the colon is taken before its key,
and a value that does not start with a colon takes its first token even where it is invalid. So a
loop only ends at a token that announces nothing, and the loop over a whole text only at its end
(`tops_takes`).
-/
import DataLisp.Proofs.Completeness

set_option autoImplicit false

namespace DataLisp.Tree

open DataLisp.Tree.Parser

/-! ## The tolerant grammar -/

/-- A token that may be missing. -/
inductive Perhaps (wanted : Token) : List PlacedToken → Prop where
  | missing : Perhaps wanted []
  | present (p : Position) : Perhaps wanted [⟨wanted, p⟩]

/-- What a name is read from: a word, or nothing for an empty name. -/
inductive SpansName : String → List PlacedToken → Prop where
  | missing : SpansName "" []
  | word (name : List Char) (p : Position) :
      SpansName (String.ofList name) [⟨.identifier name, p⟩]

/-- What a key is read from. An integer with a sign is taken, and there is no key. -/
inductive SpansKey : Option String → List PlacedToken → Prop where
  | missing : SpansKey none []
  | signed {n : Numeral} (p : Position) (h : n.isUnsigned = false) :
      SpansKey none [⟨.integer n, p⟩]
  | key {t : Token} {text : String} (p : Position) (h : IsKey t text) :
      SpansKey (some text) [⟨t, p⟩]

/-- **The tolerant grammar.** A part of a tree is read from a row of tokens. -/
inductive Spans : Phrase → List PlacedToken → Prop where
  | scalar {t : Token} {tree : Tree} (p : Position) (h : IsScalar t tree) :
      Spans (.value tree) [⟨t, p⟩]
  | missing : Spans (.value .invalid) []
  | outOfRange {n : Numeral} (p : Position) (h : n.toInt64? = none) :
      Spans (.value .invalid) [⟨.integer n, p⟩]
  | tooDeep {o : PlacedToken} (ts : List PlacedToken) (h : opens o.token = true) :
      Spans (.value .invalid) (o :: ts)
  | group {name : String} {es : List Entry} {word sep ts close : List PlacedToken} (p : Position)
      (hname : SpansName name word) (hsep : Perhaps .comma sep) (hes : Spans (.entries es) ts)
      (hclose : Perhaps .closeParen close) :
      Spans (.value (.group ⟨name, es, p⟩)) (⟨.openParen, p⟩ :: (word ++ (sep ++ (ts ++ close))))
  | array {trees : List Tree} {ts close : List PlacedToken} (p : Position)
      (hitems : Spans (.items trees) ts) (hclose : Perhaps .closeBracket close) :
      Spans (.value (.array trees)) (⟨.openBracket, p⟩ :: (ts ++ close))
  | expression {name : String} {es : List Entry} {word ts close : List PlacedToken} (p : Position)
      (hname : SpansName name word) (hes : Spans (.entries es) ts)
      (hclose : Perhaps .closeParen close) :
      Spans (.value (.expression ⟨name, es, p⟩)) (⟨.openExpression, p⟩ :: (word ++ (ts ++ close)))
  | plain {tree : Tree} {t : PlacedToken} {ts : List PlacedToken}
      (h : Spans (.value tree) (t :: ts)) : Spans (.entry ⟨none, tree, t.position⟩) (t :: ts)
  | keyed {key : Option String} {tree : Tree} {word ts : List PlacedToken} (p : Position)
      (hkey : SpansKey key word) (h : Spans (.value tree) ts) :
      Spans (.entry ⟨key, tree, p⟩) (⟨.colon, p⟩ :: (word ++ ts))
  | noEntries : Spans (.entries []) []
  | moreEntries {e : Entry} {es : List Entry} {ts sep us : List PlacedToken}
      (he : Spans (.entry e) ts) (hsep : Perhaps .comma sep) (hes : Spans (.entries es) us) :
      Spans (.entries (e :: es)) (ts ++ (sep ++ us))
  | noItems : Spans (.items []) []
  | moreItems {e : Entry} {trees : List Tree} {ts sep us : List PlacedToken}
      (he : Spans (.entry e) ts) (hsep : Perhaps .comma sep) (hitems : Spans (.items trees) us) :
      Spans (.items (e.value :: trees)) (ts ++ (sep ++ us))

/-- A text is a row of groups, with other tokens strewn in between. -/
inductive SpansText : List Form → List PlacedToken → Prop where
  | done : SpansText [] []
  | stray {t : PlacedToken} {forms : List Form} {us : List PlacedToken}
      (h : t.token ≠ .openParen) (hforms : SpansText forms us) : SpansText forms (t :: us)
  | group {form : Form} {forms : List Form} {ts us : List PlacedToken}
      (hform : Spans (.value (.group form)) ts) (hforms : SpansText forms us) :
      SpansText (form :: forms) (ts ++ us)

/-! ## What a parser takes -/

/-- What comes after a step depends on what the step does on the tokens ahead. -/
theorem Parser.bind_congr {α β : Type} {x y : Parser α} {stop : Position}
    {tokens : List PlacedToken} (h : x stop tokens = y stop tokens) (f : α → Parser β) :
    (x >>= f) stop tokens = (y >>= f) stop tokens := by
  rw [bind_apply, bind_apply, h]

/-- A loop whose turn takes a token goes on after it. -/
theorem Parser.many_turn {α : Type} {starts : Token → Bool} {x : Parser α} {stop : Position}
    {tokens : List PlacedToken} (hstart : tokens.head?.any (fun t => starts t.token) = true)
    (hshort : (x stop tokens).value.2.length < tokens.length) :
    many starts x stop tokens =
      (do let a ← x; return a :: (← many starts x) : Parser (List α)) stop tokens := by
  rw [many, if_pos hstart]
  dsimp only
  rw [if_pos hshort, bind_apply]
  show Noted.mk _ (_ ++ _) = Noted.mk _ (_ ++ (_ ++ []))
  rw [List.append_nil]
  rfl

/-- **What a parser takes** from the tokens ahead stands in a relation to what it gives. -/
def Takes {α : Type} (stop : Position) (tokens : List PlacedToken) (x : Parser α)
    (P : α → List PlacedToken → Prop) : Prop :=
  ∃ ts, tokens = ts ++ (x stop tokens).value.2 ∧ P (x stop tokens).value.1 ts

namespace Takes

variable {α β : Type} {stop : Position} {t : PlacedToken} {tokens rest : List PlacedToken}
  {x : Parser α} {f : α → Parser β} {P P' : α → List PlacedToken → Prop}
  {Q : β → List PlacedToken → Prop}

theorem mono (h : Takes stop tokens x P) (hP : ∀ a ts, P a ts → P' a ts) :
    Takes stop tokens x P' := by
  obtain ⟨ts, htokens, hts⟩ := h
  exact ⟨ts, htokens, hP _ ts hts⟩

theorem pure {a : α} (h : P a []) : Takes stop tokens (Pure.pure a) P :=
  ⟨[], rfl, h⟩

/-- A sequence takes what its steps take, the second from where the first has stopped. -/
theorem bind (hx : Takes stop tokens x P)
    (hf : ∀ a ts rest, tokens = ts ++ rest → P a ts →
      Takes stop rest (f a) fun b us => Q b (ts ++ us)) :
    Takes stop tokens (x >>= f) Q := by
  obtain ⟨ts, htokens, hP⟩ := hx
  obtain ⟨us, hrest, hQ⟩ := hf _ ts _ htokens hP
  refine ⟨ts ++ us, ?_, hQ⟩
  rw [List.append_assoc]
  exact htokens.trans (congrArg (ts ++ ·) hrest)

theorem pure_bind {a : α} (h : Takes stop tokens (f a) Q) :
    Takes stop tokens (Pure.pure a >>= f) Q :=
  h

/-- Looking at the next token takes nothing. -/
theorem peek_bind {f : Option Token → Parser β}
    (h : Takes stop tokens (f (tokens.head?.map PlacedToken.token)) Q) :
    Takes stop tokens (peek >>= f) Q :=
  h

theorem position_bind {f : Position → Parser β}
    (h : Takes stop tokens (f ((tokens.head?.map PlacedToken.position).getD stop)) Q) :
    Takes stop tokens (position >>= f) Q := by
  cases tokens <;> exact h

/-- Neither does a report. -/
theorem reportAt_bind {f : Unit → Parser β} (p : Position) (problem : Problem)
    (h : Takes stop tokens (f ()) Q) : Takes stop tokens (reportAt p problem >>= f) Q :=
  h

theorem report {P : Unit → List PlacedToken → Prop} (problem : Problem) (h : P () []) :
    Takes stop tokens (Parser.report problem) P := by
  cases tokens <;> exact ⟨[], rfl, h⟩

theorem report_bind {f : Unit → Parser β} (problem : Problem) (h : Takes stop tokens (f ()) Q) :
    Takes stop tokens (Parser.report problem >>= f) Q := by
  cases tokens <;> exact h

/-- Passing over a token takes it, where there is one. -/
theorem skip_bind {f : Unit → Parser β} (h : Takes stop rest (f ()) fun b us => Q b (t :: us)) :
    Takes stop (t :: rest) (skip >>= f) Q := by
  obtain ⟨us, hrest, hQ⟩ := h
  exact ⟨t :: us, congrArg (t :: ·) hrest, hQ⟩

/-- A wanted token is taken if it comes next, and otherwise nothing. -/
theorem eat (stop : Position) (tokens : List PlacedToken) (wanted : Token) :
    Takes stop tokens (Parser.eat wanted) fun eaten ts =>
      (eaten = true ∧ ∃ p rest, ts = [⟨wanted, p⟩] ∧ tokens = ⟨wanted, p⟩ :: rest) ∨
      (eaten = false ∧ ts = [] ∧ tokens.head?.map PlacedToken.token ≠ some wanted) := by
  unfold Takes
  rw [eat_apply]
  split
  · rename_i hhead
    cases tokens with
    | nil => cases hhead
    | cons t rest =>
      obtain ⟨token, p⟩ := t
      cases hhead
      exact ⟨_, rfl, .inl ⟨rfl, p, rest, rfl, rfl⟩⟩
  · rename_i hhead
    exact ⟨[], rfl, .inr ⟨rfl, rfl, hhead⟩⟩

theorem eat_perhaps (stop : Position) (tokens : List PlacedToken) (wanted : Token) :
    Takes stop tokens (Parser.eat wanted) fun _ ts => Perhaps wanted ts := by
  refine (eat stop tokens wanted).mono ?_
  rintro eaten ts (⟨-, p, -, rfl, -⟩ | ⟨-, rfl, -⟩)
  · exact .present p
  · exact .missing

/-- A token that is asked for may be missing; then it is reported and nothing is taken. -/
theorem expect (stop : Position) (tokens : List PlacedToken) (wanted : Token) :
    Takes stop tokens (Parser.expect wanted) fun _ ts => Perhaps wanted ts := by
  refine bind (eat_perhaps stop tokens wanted) fun eaten ts rest _ hts => ?_
  split
  · exact pure (by rwa [List.append_nil])
  · exact peek_bind (report _ (by rwa [List.append_nil]))

/-- A parser that takes something leaves less. -/
theorem shorter (h : Takes stop tokens x fun _ ts => ts ≠ []) :
    (x stop tokens).value.2.length < tokens.length := by
  obtain ⟨ts, htokens, hne⟩ := h
  have hpos : 0 < ts.length := List.length_pos_iff.mpr hne
  have hlength := congrArg List.length htokens
  rw [List.length_append] at hlength
  omega

/-- A loop takes what its turns take, one after the other. -/
theorem many (starts : Token → Bool) {P : List α → List PlacedToken → Prop} (hnil : P [] [])
    (hturn : ∀ tokens, tokens.head?.any (fun t => starts t.token) = true →
      Takes stop tokens x fun a ts => ts ≠ [] ∧ ∀ as us, P as us → P (a :: as) (ts ++ us))
    (tokens : List PlacedToken) :
    Takes stop tokens (Parser.many starts x) fun as ts =>
      P as ts ∧ ∀ rest, tokens = ts ++ rest → rest.head?.any (fun t => starts t.token) = false := by
  induction hlength : tokens.length using Nat.strong_induction_on generalizing tokens with
  | _ length ih =>
    subst hlength
    unfold Takes
    rw [Parser.many]
    split
    · rename_i hstart
      have hshort := shorter ((hturn tokens hstart).mono fun _ _ h => h.1)
      obtain ⟨ts, htokens, -, hfront⟩ := hturn tokens hstart
      obtain ⟨us, hrest, hus, hends⟩ := ih _ hshort _ rfl
      dsimp only
      rw [if_pos hshort]
      refine ⟨ts ++ us, ?_, hfront _ us hus, ?_⟩
      · rw [List.append_assoc]
        exact htokens.trans (congrArg (ts ++ ·) hrest)
      · intro rest hsplit
        rw [List.append_assoc, htokens] at hsplit
        exact hends rest (List.append_cancel_left hsplit)
    · rename_i hstart
      refine ⟨[], rfl, hnil, ?_⟩
      rintro rest rfl
      exact Bool.eq_false_of_not_eq_true hstart

end Takes

/-! ## The parts of the grammar -/

section Grammar

variable {stop : Position}

/-- A name is a word, or missing. -/
theorem name_takes (tokens : List PlacedToken) : Takes stop tokens name SpansName := by
  refine Takes.peek_bind ?_
  split
  · rename_i word hhead
    obtain ⟨p, htokens⟩ := head_token hhead
    rw [htokens]
    exact Takes.skip_bind (Takes.pure (.word word p))
  · exact Takes.report_bind _ (Takes.pure .missing)

/-- A key is taken if it is one, passed over if it is a signed integer, and else missing. -/
theorem key_takes (tokens : List PlacedToken) : Takes stop tokens key SpansKey := by
  refine Takes.peek_bind ?_
  split
  · rename_i word hhead
    obtain ⟨p, htokens⟩ := head_token hhead
    rw [htokens]
    exact Takes.skip_bind (Takes.pure (.key p (.word word)))
  · rename_i n hhead
    obtain ⟨p, htokens⟩ := head_token hhead
    rw [htokens]
    split
    · rename_i hunsigned
      exact Takes.skip_bind (Takes.pure (.key p (.number hunsigned)))
    · rename_i hsigned
      exact Takes.report_bind _ (Takes.skip_bind (Takes.pure
        (.signed p (Bool.eq_false_of_not_eq_true hsigned))))
  · exact Takes.report_bind _ (Takes.pure .missing)

/-- Whether a value stands ahead, be it an invalid one. -/
def Announced (tokens : List PlacedToken) : Prop :=
  ∃ t rest, tokens = t :: rest ∧ startsEntry t.token = true ∧ t.token ≠ .colon

/-- A parser of values within a number of levels, which takes what its tree spans. It takes the
first token wherever a value is announced. -/
def ReadsAll (stop : Position) (read : Parser Tree) (levels : Nat) : Prop :=
  ∀ tokens, Takes stop tokens read fun tree ts =>
    Spans (.value tree) ts ∧ tree.depth ≤ levels ∧ (Announced tokens → ts ≠ [])

/-- A scalar takes its token, if the token is one that a value may start with. -/
theorem scalar_takes (levels : Nat) (tokens : List PlacedToken)
    (hopens : ∀ t ∈ tokens.head?, opens t.token = false) :
    Takes stop tokens scalar fun tree ts =>
      Spans (.value tree) ts ∧ tree.depth ≤ levels ∧ (Announced tokens → ts ≠ []) := by
  -- a token that is a value takes itself
  have htoken : ∀ {token : Token} {tree : Tree}, IsScalar token tree →
      tokens.head?.map PlacedToken.token = some token →
      Takes stop tokens (do skip; return tree) fun tree ts =>
        Spans (.value tree) ts ∧ tree.depth ≤ levels ∧ (Announced tokens → ts ≠ []) := by
    intro token tree hscalar hhead
    obtain ⟨p, htokens⟩ := head_token hhead
    rw [htokens]
    refine Takes.skip_bind (Takes.pure ⟨.scalar p hscalar, ?_, by simp⟩)
    cases hscalar <;> exact Nat.zero_le _
  refine Takes.peek_bind ?_
  split
  · rename_i n hhead
    split
    · rename_i i hi
      exact htoken (.integer hi) hhead
    · rename_i hrange
      obtain ⟨p, htokens⟩ := head_token hhead
      rw [htokens]
      exact Takes.report_bind _ (Takes.skip_bind (Takes.pure
        ⟨.outOfRange p hrange, Nat.zero_le _, by simp⟩))
  · rename_i n hhead
    exact htoken (.float n) hhead
  · rename_i content hhead
    exact htoken (.string content) hhead
  · rename_i b hhead
    exact htoken (.bool b) hhead
  · rename_i hhead
    exact htoken .null hhead
  -- what else announces a value opens one
  · rename_i hinteger hfloat hstring hbool hnull
    refine Takes.report_bind _ (Takes.pure ⟨.missing, Nat.zero_le _, ?_⟩)
    rintro ⟨⟨token, p⟩, rest, rfl, hstart, hcolon⟩
    have hclosed := hopens _ rfl
    cases token <;> simp_all [startsEntry, opens]

variable {read : Parser Tree} {levels : Nat}

/-- **An entry takes a token**: the colon, or the first token of its value. -/
theorem entry_takes (hread : ReadsAll stop read levels) {t : PlacedToken}
    (hstart : startsEntry t.token = true) (rest : List PlacedToken) :
    Takes stop (t :: rest) (entry read) fun e ts =>
      Spans (.entry e) ts ∧ e.value.depth ≤ levels ∧ ts ≠ [] := by
  refine Takes.position_bind ?_
  refine Takes.bind (Takes.eat stop _ .colon) fun eaten ts after hsplit hts => ?_
  rcases hts with ⟨rfl, p, rest, rfl, hcolon⟩ | ⟨rfl, rfl, hcolon⟩
  · cases hcolon
    refine Takes.bind (key_takes after) fun key word after _ hkey => ?_
    refine Takes.bind (hread after) fun tree ts _ _ ⟨hspans, hdepth, _⟩ => ?_
    refine Takes.pure ⟨?_, hdepth, by simp⟩
    rw [List.append_nil, List.singleton_append]
    exact .keyed p hkey hspans
  · obtain rfl : after = t :: rest := hsplit.symm
    have hannounced : Announced (t :: rest) := ⟨t, rest, rfl, hstart, by simpa using hcolon⟩
    refine Takes.pure_bind (Takes.bind (hread _) fun tree ts _ htree ⟨hspans, hdepth, hne⟩ => ?_)
    obtain ⟨u, us, rfl⟩ := List.exists_cons_of_ne_nil (hne hannounced)
    cases htree
    refine Takes.pure ⟨?_, hdepth, by simp⟩
    rw [List.append_nil, List.nil_append]
    exact .plain hspans

/-- What a turn of the loop over entries takes may stand before any row of entries. -/
theorem separatedEntry_takes (hread : ReadsAll stop read levels) {tokens : List PlacedToken}
    (hstart : tokens.head?.any (fun t => startsEntry t.token) = true) :
    Takes stop tokens (do let e ← entry read; let _ ← eat .comma; return e) fun e ts =>
      ts ≠ [] ∧ ∀ es us, Spans (.entries es) us ∧ Entries.depth es ≤ levels →
        Spans (.entries (e :: es)) (ts ++ us) ∧ Entries.depth (e :: es) ≤ levels := by
  cases tokens with
  | nil => cases hstart
  | cons t rest =>
    refine Takes.bind (entry_takes hread hstart rest) fun e ts after _ ⟨hspans, hdepth, hne⟩ => ?_
    refine Takes.bind (Takes.eat_perhaps stop after .comma) fun _ sep _ _ hsep => ?_
    refine Takes.pure ⟨by simp [hne], ?_⟩
    rintro es us ⟨hes, hdepths⟩
    rw [List.append_nil, List.append_assoc]
    obtain ⟨key, tree, p⟩ := e
    exact ⟨.moreEntries hspans hsep hes, Nat.max_le.mpr ⟨hdepth, hdepths⟩⟩

/-- A loop over entries takes a row of them, whatever faults they have. -/
theorem entries_takes (hread : ReadsAll stop read levels) (tokens : List PlacedToken) :
    Takes stop tokens (entries read) fun es ts =>
      Spans (.entries es) ts ∧ Entries.depth es ≤ levels :=
  (Takes.many startsEntry (P := fun es ts => Spans (.entries es) ts ∧ Entries.depth es ≤ levels)
    ⟨.noEntries, Nat.zero_le _⟩ (fun _ => separatedEntry_takes hread) tokens).mono fun _ _ h => h.1

/-- The same for the loop over items, where it makes no difference that a key is reported. -/
theorem separatedItem_takes (hread : ReadsAll stop read levels) {tokens : List PlacedToken}
    (hstart : tokens.head?.any (fun t => startsEntry t.token) = true) :
    Takes stop tokens
      (do
        let e ← entry read
        if e.key.isSome then
          reportAt e.position .keyedItem
        let _ ← eat .comma
        return e.value) fun tree ts =>
      ts ≠ [] ∧ ∀ trees us, Spans (.items trees) us ∧ Trees.depth trees ≤ levels →
        Spans (.items (tree :: trees)) (ts ++ us) ∧ Trees.depth (tree :: trees) ≤ levels := by
  cases tokens with
  | nil => cases hstart
  | cons t rest =>
    refine Takes.bind (entry_takes hread hstart rest) fun e ts after _ ⟨hspans, hdepth, hne⟩ => ?_
    have hcomma : Takes stop after (do let _ ← eat .comma; return e.value) fun tree sep =>
        ts ++ sep ≠ [] ∧ ∀ trees us, Spans (.items trees) us ∧ Trees.depth trees ≤ levels →
          Spans (.items (tree :: trees)) (ts ++ sep ++ us) ∧
            Trees.depth (tree :: trees) ≤ levels := by
      refine Takes.bind (Takes.eat_perhaps stop after .comma) fun _ sep _ _ hsep => ?_
      refine Takes.pure ⟨by simp [hne], ?_⟩
      rintro trees us ⟨htrees, hdepths⟩
      rw [List.append_nil, List.append_assoc]
      exact ⟨.moreItems hspans hsep htrees, Nat.max_le.mpr ⟨hdepth, hdepths⟩⟩
    dsimp only
    split
    · exact Takes.reportAt_bind _ _ hcomma
    · exact hcomma

/-- The same for items. -/
theorem items_takes (hread : ReadsAll stop read levels) (tokens : List PlacedToken) :
    Takes stop tokens (items read) fun trees ts =>
      Spans (.items trees) ts ∧ Trees.depth trees ≤ levels :=
  (Takes.many startsEntry
    (P := fun trees ts => Spans (.items trees) ts ∧ Trees.depth trees ≤ levels)
    ⟨.noItems, Nat.zero_le _⟩ (fun _ => separatedItem_takes hread) tokens).mono fun _ _ h => h.1

/-- The inside of a group, up to a closing parenthesis that may be missing. -/
theorem groupForm_takes (hread : ReadsAll stop read levels) (p : Position)
    (tokens : List PlacedToken) :
    Takes stop tokens (groupForm read p) fun form ts =>
      form.depth ≤ levels ∧ ∀ close, Perhaps .closeParen close →
        Spans (.value (.group form)) (⟨.openParen, p⟩ :: (ts ++ close)) := by
  refine Takes.bind (name_takes tokens) fun name word after _ hname => ?_
  refine Takes.bind (Takes.eat_perhaps stop after .comma) fun _ sep after _ hsep => ?_
  refine Takes.bind (entries_takes hread after) fun es ts _ _ ⟨hes, hdepth⟩ => ?_
  refine Takes.pure ⟨hdepth, fun close hclose => ?_⟩
  rw [List.append_nil, List.append_assoc, List.append_assoc]
  exact .group p hname hsep hes hclose

/-- The same for an expression. -/
theorem expressionForm_takes (hread : ReadsAll stop read levels) (p : Position)
    (tokens : List PlacedToken) :
    Takes stop tokens (expressionForm read p) fun form ts =>
      form.depth ≤ levels ∧ ∀ close, Perhaps .closeParen close →
        Spans (.value (.expression form)) (⟨.openExpression, p⟩ :: (ts ++ close)) := by
  refine Takes.bind (name_takes tokens) fun name word after _ hname => ?_
  refine Takes.bind (entries_takes hread after) fun es ts _ _ ⟨hes, hdepth⟩ => ?_
  refine Takes.pure ⟨hdepth, fun close hclose => ?_⟩
  rw [List.append_nil, List.append_assoc]
  exact .expression p hname hes hclose

end Grammar

/-! ## Values and texts -/

/-- What is dropped is a prefix. -/
theorem dropBalanced_suffix (depth : Nat) (tokens : List PlacedToken) :
    dropBalanced depth tokens <:+ tokens := by
  induction tokens generalizing depth with
  | nil => exact List.suffix_refl _
  | cons t rest ih =>
    rw [dropBalanced]
    split
    · exact (ih _).trans (List.suffix_cons t rest)
    split
    · split
      · exact List.suffix_cons t rest
      · exact (ih _).trans (List.suffix_cons t rest)
    · exact (ih _).trans (List.suffix_cons t rest)

/-- What stands in brackets is taken with the bracket that opens it, and with the one that closes it
where there is one. -/
theorem bracketed_takes {α : Type} {stop : Position} {t : PlacedToken} {rest : List PlacedToken}
    {x : Parser α} {tree : α → Tree} {wanted : Token} {levels : Nat}
    (hx : Takes stop rest x fun a ts => (tree a).depth ≤ levels ∧
      ∀ close, Perhaps wanted close → Spans (.value (tree a)) (t :: (ts ++ close))) :
    Takes stop (t :: rest) (do skip; let a ← x; expect wanted; return tree a) fun tree ts =>
      Spans (.value tree) ts ∧ tree.depth ≤ levels ∧ (Announced (t :: rest) → ts ≠ []) := by
  refine Takes.skip_bind (Takes.bind hx fun a ts after _ ⟨hdepth, hspans⟩ => ?_)
  refine Takes.bind (Takes.expect stop after wanted) fun _ close _ _ hclose => ?_
  refine Takes.pure ⟨?_, hdepth, fun _ => List.cons_ne_nil _ _⟩
  rw [List.append_nil]
  exact hspans close hclose

/-- **A value takes what its tree spans**, and nests no deeper than its levels. -/
theorem value_takes (stop : Position) (levels : Nat) : ReadsAll stop (value levels) levels := by
  induction levels with
  | zero =>
    intro tokens
    refine Takes.peek_bind ?_
    split
    · rename_i hopens
      cases tokens with
      | nil => cases hopens
      | cons t rest =>
        obtain ⟨ts, hts⟩ := dropBalanced_suffix 1 rest
        refine Takes.report_bind _ ⟨t :: ts, ?_, .tooDeep ts hopens, Nat.le_refl _, by simp⟩
        show t :: rest = t :: ts ++ dropBalanced 0 (t :: rest)
        have ht : opens t.token = true := hopens
        rw [dropBalanced, if_pos ht, List.cons_append, hts]
    · rename_i hopens
      exact scalar_takes 0 tokens (by cases tokens <;> simp_all)
  | succ levels ih =>
    intro tokens
    refine Takes.position_bind (Takes.peek_bind ?_)
    split
    · rename_i hhead
      obtain ⟨p, htokens⟩ := head_token hhead
      rw [htokens]
      exact bracketed_takes ((groupForm_takes ih p _).mono fun form ts hform =>
        ⟨Nat.succ_le_succ hform.1, hform.2⟩)
    · rename_i hhead
      obtain ⟨p, htokens⟩ := head_token hhead
      rw [htokens]
      exact bracketed_takes ((items_takes ih _).mono fun trees ts hitems =>
        ⟨Nat.succ_le_succ hitems.2, fun close hclose => .array p hitems.1 hclose⟩)
    · rename_i hhead
      obtain ⟨p, htokens⟩ := head_token hhead
      rw [htokens]
      exact bracketed_takes ((expressionForm_takes ih p _).mono fun form ts hform =>
        ⟨Nat.succ_le_succ hform.1, hform.2⟩)
    · rename_i hparen hbracket hexpression
      refine scalar_takes _ tokens ?_
      rintro ⟨token, p⟩ hhead
      rw [Option.mem_def] at hhead
      cases token <;> simp_all [opens]

/-- At the top a group is taken, or a token that has no place there. -/
theorem top_takes (stop : Position) (t : PlacedToken) (rest : List PlacedToken) :
    Takes stop (t :: rest) top fun result ts => ts ≠ [] ∧
      ∀ forms us, SpansText forms us ∧ (∀ form ∈ forms, form.depth ≤ maxDepth) →
        SpansText (result.toList ++ forms) (ts ++ us) ∧
          ∀ form ∈ result.toList ++ forms, form.depth ≤ maxDepth := by
  obtain ⟨token, p⟩ := t
  refine Takes.position_bind (Takes.peek_bind ?_)
  dsimp only [List.head?_cons, Option.map_some]
  split
  · rename_i hhead
    cases hhead
    have hread := value_takes stop maxDepth
    refine Takes.skip_bind
      (Takes.bind (groupForm_takes hread p rest) fun form ts after _ hform => ?_)
    refine Takes.bind (Takes.expect stop after .closeParen) fun _ close _ _ hclose => ?_
    refine Takes.pure ⟨by simp, ?_⟩
    rintro forms us ⟨hforms, hdepths⟩
    rw [List.append_nil]
    exact ⟨.group (hform.2 close hclose) hforms, List.forall_mem_cons.mpr ⟨hform.1, hdepths⟩⟩
  · rename_i got hparen hhead
    cases hhead
    refine Takes.report_bind _ (Takes.skip_bind (Takes.pure ⟨by simp, ?_⟩))
    rintro forms us ⟨hforms, hdepths⟩
    exact ⟨.stray (by simpa using hparen) hforms, hdepths⟩
  · rename_i hhead
    cases hhead

/-- **Every row of tokens has forms**: no token is left, the forms span the row from its first
token to its last, and none nests too deep. -/
theorem tops_takes (stop : Position) (tokens : List PlacedToken) :
    (tops stop tokens).value.2 = [] ∧ SpansText (tops stop tokens).value.1 tokens ∧
      ∀ form ∈ (tops stop tokens).value.1, form.depth ≤ maxDepth := by
  have hturn : ∀ tokens : List PlacedToken, tokens.head?.any (fun _ => true) = true →
      Takes stop tokens top fun result ts => ts ≠ [] ∧
        ∀ results us,
          SpansText (results.filterMap id) us ∧
            (∀ form ∈ results.filterMap id, form.depth ≤ maxDepth) →
          SpansText ((result :: results).filterMap id) (ts ++ us) ∧
            ∀ form ∈ (result :: results).filterMap id, form.depth ≤ maxDepth := by
    rintro (_ | ⟨t, rest⟩) hstart
    · cases hstart
    refine (top_takes stop t rest).mono ?_
    rintro (_ | form) ts ⟨hne, hfront⟩
    · exact ⟨hne, fun results => hfront _⟩
    · exact ⟨hne, fun results => hfront _⟩
  obtain ⟨ts, htokens, ⟨hspans, hdepths⟩, hends⟩ := Takes.many (fun _ => true)
    (P := fun results ts => SpansText (results.filterMap id) ts ∧
      ∀ form ∈ results.filterMap id, form.depth ≤ maxDepth)
    ⟨.done, by simp⟩ hturn tokens
  -- every token begins a turn, so none is left
  have hrest : (many (fun _ => true) top stop tokens).value.2 = [] := by
    have hhead := hends _ htokens
    cases hlast : (many (fun _ => true) top stop tokens).value.2 with
    | nil => rfl
    | cons t rest =>
      rw [hlast] at hhead
      cases hhead
  rw [hrest, List.append_nil] at htokens
  rw [tops_apply]
  exact ⟨hrest, htokens ▸ hspans, hdepths⟩

/-! ## Group by group -/

/-- Where a token is left the loop takes a turn, and goes on from what the turn leaves. -/
theorem tops_cons (stop : Position) (t : PlacedToken) (rest : List PlacedToken) :
    tops stop (t :: rest) =
      (do
        let form ← top
        return form.toList ++ (← tops) : Parser (List Form)) stop (t :: rest) := by
  have hshort := ((top_takes stop t rest).mono fun _ _ h => h.1).shorter
  have hsame : ∀ (form : Option Form) forms,
      (form :: forms).filterMap id = form.toList ++ forms.filterMap id := by
    rintro (_ | form) forms <;> rfl
  refine (bind_congr (many_turn rfl hshort) _).trans ?_
  simp only [tops, bind_assoc, pure_bind, hsame]

/-- A group, and what follows it. -/
theorem tops_group (stop p : Position) (rest : List PlacedToken) :
    tops stop (⟨.openParen, p⟩ :: rest) =
      (do
        skip
        let form ← groupForm (value maxDepth) p
        expect .closeParen
        return form :: (← tops) : Parser (List Form)) stop (⟨.openParen, p⟩ :: rest) := by
  have htop : top stop (⟨.openParen, p⟩ :: rest) =
      (do
        skip
        let form ← groupForm (value maxDepth) p
        expect .closeParen
        return some form : Parser (Option Form)) stop (⟨.openParen, p⟩ :: rest) := rfl
  rw [tops_cons]
  refine (bind_congr htop _).trans ?_
  simp only [bind_assoc, pure_bind]
  rfl

/-- A token that has no place at the top, and what follows it. -/
theorem tops_stray {stop p : Position} {token : Token} (h : token ≠ .openParen)
    (rest : List PlacedToken) :
    tops stop (⟨token, p⟩ :: rest) =
      (do skip; reportAt p (.outside token); tops : Parser (List Form)) stop
        (⟨token, p⟩ :: rest) := by
  have htop : top stop (⟨token, p⟩ :: rest) =
      (do skip; reportAt p (.outside token); return none : Parser (Option Form)) stop
        (⟨token, p⟩ :: rest) := by
    cases token <;> first | exact absurd rfl h | rfl
  rw [tops_cons]
  refine (bind_congr htop _).trans ?_
  simp only [bind_assoc, pure_bind, Option.toList_none, List.nil_append, bind_pure]

end DataLisp.Tree
