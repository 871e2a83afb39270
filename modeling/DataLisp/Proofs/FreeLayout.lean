/-
Layout is free.

Between any two tokens there may be blanks and comments, as many as one likes, and there may be
nothing at all if one of the two tokens has an end of its own: punctuation and strings do, words and
numbers go on as far as they can. A `Layout` is a row of tokens with such gaps.

The scanner finds the tokens of every layout again and nothing else (`scan_layout_tokens`): a gap is
skipped lexeme by lexeme, and whatever may follow a word or a number, be it the first character of
a gap or of a token with an end of its own, goes on with neither. What is parsed depends on the
tokens alone, but for the positions (`ofText_of_tokens`), because the parser only passes these on.
So two layouts of the same tokens are parsed alike.
-/
import DataLisp.Proofs.Layout
import DataLisp.Proofs.Relocation

set_option autoImplicit false

namespace DataLisp.Token

/-! ## Gaps and layouts -/

/-- What may stand between tokens: blanks, and comments up to the end of their line. -/
inductive Gap : List Char → Prop where
  | nil : Gap []
  | blank {c : Char} {cs : List Char} (hc : Text.isBlank c = true) (h : Gap cs) : Gap (c :: cs)
  | comment {text cs : List Char} (htext : '\n' ∉ text) (h : Gap cs) :
      Gap (';' :: (text ++ '\n' :: cs))

/-- A token and the gap after it. -/
structure Spaced where
  token : Token
  gap : List Char

namespace Spaced

/-- The text of a token with the gap after it. -/
def text (s : Spaced) : List Char :=
  s.token.spell ++ s.gap

/-- Whether a token is kept apart from the next: by a gap, or because one of them ends by itself. -/
def Apart (s t : Spaced) : Prop :=
  s.gap = [] → s.token.isOpenEnded = false ∨ t.token.isOpenEnded = false

instance : DecidableRel Apart := fun s t =>
  inferInstanceAs (Decidable (s.gap = [] →
    s.token.isOpenEnded = false ∨ t.token.isOpenEnded = false))

end Spaced

/-- Tokens laid out as a text: a gap in front of the first, and one after each. -/
structure Layout where
  lead : List Char
  row : List Spaced
  gap_lead : Gap lead
  gap_row : ∀ s ∈ row, Gap s.gap
  proper : ∀ s ∈ row, s.token.Proper
  apart : row.IsChain Spaced.Apart

namespace Layout

/-- The text of a layout. -/
def text (l : Layout) : String :=
  String.ofList (l.lead ++ l.row.flatMap Spaced.text)

/-- The tokens of a layout. -/
def tokens (l : Layout) : List Token :=
  l.row.map Spaced.token

end Layout

/-! ## Scanning a layout -/

/-- A comment is one lexeme, which leaves its line break behind. -/
theorem scan_comment {text : List Char} (htext : '\n' ∉ text) (p : Position) (rest : List Char) :
    Lexeme.scan p ';' (text ++ '\n' :: rest) = ⟨none, text.length, []⟩ := by
  have hrun : (text ++ '\n' :: rest).takeWhile (· ≠ '\n') = text :=
    takeWhile_run (fun c hc => decide_eq_true (ne_of_mem_of_not_mem hc htext))
      (by rintro _ ⟨⟩; rfl)
  show Lexeme.skip ((text ++ '\n' :: rest).takeWhile (· ≠ '\n')).length = _
  rw [hrun]
  rfl

/-- A gap is skipped. -/
theorem scanFrom_gap {cs : List Char} (h : Gap cs) (p : Position) (rest : List Char) :
    scanFrom p (cs ++ rest) = scanFrom (p.advance cs) rest := by
  induction h generalizing p with
  | nil => rfl
  | @blank c cs hc _ ih =>
    have hblank : scanFrom p (c :: (cs ++ rest)) = scanFrom (p.advance [c]) (cs ++ rest) :=
      scanFrom_blanks (List.forall_mem_singleton.mpr hc) p (cs ++ rest)
    rw [List.cons_append, hblank, ih]
    rfl
  | @comment text cs htext _ ih =>
    have hcomment := scanFrom_lexeme (scan_comment htext p (cs ++ rest))
    have hbreak : ∀ q : Position, scanFrom q ('\n' :: (cs ++ rest)) =
        scanFrom (q.advance ['\n']) (cs ++ rest) := fun q =>
      scanFrom_blanks (List.forall_mem_singleton.mpr rfl) q (cs ++ rest)
    rw [List.cons_append, List.append_assoc, List.cons_append, ← List.cons_append, hcomment, hbreak,
      ih, ← Position.advance_append, ← Position.advance_append]
    simp

/-- Neither a blank nor a comment goes on with a word or a number. -/
theorem Gap.boundary {cs : List Char} (h : Gap cs) (hne : cs ≠ []) (rest : List Char) :
    Boundary (cs ++ rest) := by
  cases h with
  | nil => exact absurd rfl hne
  | blank hc _ =>
    rintro _ ⟨⟩
    exact not_wordPart_of_isBlank hc
  | comment _ _ =>
    rintro _ ⟨⟩
    exact ⟨rfl, by decide⟩

/-- What follows a word or a number in a layout does not go on with it. -/
theorem boundary_of_apart {s : Spaced} {row : List Spaced} (hgap : Gap s.gap)
    (hapart : (s :: row).IsChain Spaced.Apart) (hopen : s.token.isOpenEnded = true) :
    Boundary (s.gap ++ row.flatMap Spaced.text) := by
  by_cases hnil : s.gap = []
  · rw [hnil, List.nil_append]
    cases row with
    | nil => exact fun c hc => nomatch hc
    | cons t row =>
      -- without a gap the next token is the one with an end of its own
      have hnext : t.token.isOpenEnded = false :=
        (hapart.rel hnil).resolve_left (by simp [hopen])
      obtain ⟨-, d, ds, hspell, hd⟩ := spell_of_not_isOpenEnded hnext
      rintro c hc
      rw [List.flatMap_cons, Spaced.text, hspell] at hc
      cases hc
      exact hd
  · exact hgap.boundary hnil _

/-- The scanner finds the tokens of a row, and no fault. -/
theorem scanFrom_row {row : List Spaced} (hgap : ∀ s ∈ row, Gap s.gap)
    (hproper : ∀ s ∈ row, s.token.Proper) (hapart : row.IsChain Spaced.Apart) (p : Position) :
    (scanFrom p (row.flatMap Spaced.text)).tokens.map PlacedToken.token = row.map Spaced.token ∧
      (scanFrom p (row.flatMap Spaced.text)).problems = [] := by
  induction row generalizing p with
  | nil =>
    rw [List.flatMap_nil, scanFrom_nil]
    exact ⟨rfl, rfl⟩
  | cons s row ih =>
    rw [List.forall_mem_cons] at hgap hproper
    obtain ⟨c, cs, hspell, hscan⟩ :=
      Lexeme.scan_spell hproper.1 (boundary_of_apart hgap.1 hapart)
    have hrest := ih hgap.2 hproper.2 hapart.tail ((p.advance (c :: cs)).advance s.gap)
    rw [List.flatMap_cons, Spaced.text, List.append_assoc, hspell, scanFrom_lexeme (hscan p),
      scanFrom_gap hgap.1]
    refine ⟨?_, hrest.2⟩
    rw [List.map_cons, ← hrest.1]
    rfl

theorem scan_layout_tokens (l : Layout) :
    (scan l.text).tokens.map PlacedToken.token = l.tokens ∧ (scan l.text).problems = [] := by
  rw [scan, Layout.text, String.toList_ofList, scanFrom_gap l.gap_lead]
  exact scanFrom_row l.gap_row l.proper l.apart _

end DataLisp.Token

/-! ## Parsing up to positions -/

namespace DataLisp

namespace Parsed

/-- A parsed text with all positions made equal. -/
def placeless (parsed : Parsed) : Parsed :=
  ⟨parsed.forms.map (Form.move fun _ => .start),
    parsed.diagnostics.map (Diagnostic.move fun _ => .start)⟩

/-- What is parsed from tokens that all have the same position. -/
def ofTokens (ts : List Token) : Parsed :=
  let result := Tree.tops .start (ts.map fun t => ⟨t, .start⟩)
  ⟨result.value.1, result.notes⟩

/-- **What is parsed depends on the tokens alone**, but for the positions. -/
theorem placeless_ofText {text : String} (h : (Token.scan text).problems = []) :
    (ofText text).placeless = ofTokens ((Token.scan text).tokens.map PlacedToken.token) := by
  have hfollows := Tree.tops_follows (φ := fun _ => .start) (Token.scan text).stop
    (Token.scan text).tokens
  have htokens : (Token.scan text).tokens.map (PlacedToken.move fun _ => .start) =
      ((Token.scan text).tokens.map PlacedToken.token).map fun t => ⟨t, .start⟩ := by
    rw [List.map_map]
    rfl
  rw [htokens] at hfollows
  rw [ofTokens, hfollows, placeless, ofText, h, List.nil_append]

end Parsed

/-- **Layout is free.** Let tokens be laid out as a text, with any gaps that keep them apart. The
scanner finds exactly these tokens and no fault, and any other layout of the same tokens is parsed
as this one: with the same trees and the same diagnostics, but for their positions. -/
theorem Token.scan_layout_free (l : Token.Layout) :
    (Token.scan l.text).tokens.map PlacedToken.token = l.tokens ∧
    (Token.scan l.text).problems = [] ∧
    ∀ l' : Token.Layout, l'.tokens = l.tokens →
      (Parsed.ofText l'.text).placeless = (Parsed.ofText l.text).placeless := by
  obtain ⟨htokens, hproblems⟩ := scan_layout_tokens l
  refine ⟨htokens, hproblems, ?_⟩
  intro l' hsame
  obtain ⟨htokens', hproblems'⟩ := scan_layout_tokens l'
  rw [Parsed.placeless_ofText hproblems, Parsed.placeless_ofText hproblems', htokens, htokens',
    hsame]

/-- A text with no more gaps than it needs, and one with a blank that is not ASCII, comments, and a
line break in a group. -/
theorem Token.scan_layout_free_commented : ∃ l l' : Token.Layout,
    l.text = "(a:k -.5e3\"x;\"$(f))" ∧
    l'.text = "; one\n( a\u2003:k;two\n-.5e3\"x;\" $(f\n))" ∧
    l'.tokens = l.tokens ∧
    (Parsed.ofText l'.text).placeless = (Parsed.ofText l.text).placeless := by
  have hproper : ∀ t ∈ [.openParen, .identifier ['a'], .colon, .identifier ['k'],
      .float (Numeral.scan "-.5e3".toList).1, .string ['x', ';'], .openExpression,
      .identifier ['f'], .closeParen, .closeParen], Token.Proper t := by
    simp only [List.forall_mem_cons, List.not_mem_nil, false_implies, implies_true, and_true]
    exact ⟨trivial, rfl, trivial, rfl, ⟨proper_numeral_scan _, rfl⟩, trivial, trivial, rfl, trivial,
      trivial⟩
  have hblank : ∀ c, Text.isBlank c = true → Gap [c] := fun _ hc => .blank hc .nil
  have hone : Gap (';' :: (" one".toList ++ '\n' :: [])) := .comment (by decide) .nil
  have htwo : Gap (';' :: ("two".toList ++ '\n' :: [])) := .comment (by decide) .nil
  let dense : Token.Layout := {
    lead := []
    row := [⟨.openParen, []⟩, ⟨.identifier ['a'], []⟩, ⟨.colon, []⟩, ⟨.identifier ['k'], [' ']⟩,
      ⟨.float (Numeral.scan "-.5e3".toList).1, []⟩, ⟨.string ['x', ';'], []⟩, ⟨.openExpression, []⟩,
      ⟨.identifier ['f'], []⟩, ⟨.closeParen, []⟩, ⟨.closeParen, []⟩]
    gap_lead := .nil
    gap_row := by
      simp only [List.forall_mem_cons, List.not_mem_nil, false_implies, implies_true, and_true]
      exact ⟨.nil, .nil, .nil, hblank _ rfl, .nil, .nil, .nil, .nil, .nil, .nil⟩
    proper := fun s hs => hproper s.token (List.mem_map_of_mem hs)
    apart := by decide }
  let loose : Token.Layout := {
    lead := "; one\n".toList
    row := [⟨.openParen, [' ']⟩, ⟨.identifier ['a'], ['\u2003']⟩, ⟨.colon, []⟩,
      ⟨.identifier ['k'], ";two\n".toList⟩, ⟨.float (Numeral.scan "-.5e3".toList).1, []⟩,
      ⟨.string ['x', ';'], [' ']⟩, ⟨.openExpression, []⟩, ⟨.identifier ['f'], ['\n']⟩,
      ⟨.closeParen, []⟩, ⟨.closeParen, []⟩]
    gap_lead := hone
    gap_row := by
      simp only [List.forall_mem_cons, List.not_mem_nil, false_implies, implies_true, and_true]
      exact ⟨hblank _ rfl, hblank _ rfl, .nil, htwo, .nil, hblank _ rfl, .nil, hblank _ rfl, .nil,
        .nil⟩
    proper := fun s hs => hproper s.token (List.mem_map_of_mem hs)
    apart := by decide }
  exact ⟨dense, loose, rfl, rfl, rfl, (scan_layout_free dense).2.2 loose rfl⟩

end DataLisp
