/-
Positions are right.

The scanner counts lines and columns on, character by character, and never goes back. So the
position that it has after some text is a matter of that text alone: one line more than there are
line breaks, and one column more than there are characters after the last of them
(`start_advance`). Whatever has a position then has the position after some first part of the text
(`Within`), and a character further is a position further. The scan is a row of lexemes
(`scanFrom_starts`), and what is said of tokens and faults follows from what is said of the places
at which lexemes begin: their positions increase, and so do those of the tokens.

The parser has no positions but those of the tokens and of the end. That need not be followed
through the grammar: a function that keeps these positions and sends all others to the end moves
neither tokens nor end, and since parsing moved tokens gives moved diagnostics, it moves no
diagnostic either (`tops_positions`). Where the positions in the trees come from, the tolerant
grammar says. The builder reports at an expression that it evaluates or at an entry that it adds,
which is an induction on the tree (`Tree.build_at`).
-/
import DataLisp.Proofs.Recovery
import DataLisp.Proofs.Relocation

set_option autoImplicit false

namespace DataLisp

/-! ## Lines and columns -/

namespace Position

/-- The position after the first part of a text: its line breaks and the characters after the last
of them are counted, and both counts start from one. -/
def after (cs : List Char) : Position :=
  ⟨1 + cs.count '\n', 1 + (cs.reverse.takeWhile (· ≠ '\n')).length⟩

/-- **Counting on** from the start of a text gives the position after it. -/
theorem start_advance (cs : List Char) : start.advance cs = after cs := by
  induction cs using List.reverseRecOn with
  | nil => rfl
  | append_singleton cs c ih =>
    rw [advance_append, ih, after, after, List.count_append, List.reverse_append,
      List.reverse_singleton, List.singleton_append]
    show next _ c = _
    by_cases hc : c = '\n'
    · subst hc
      rfl
    · have hcount : [c].count '\n' = 0 := List.count_eq_zero.mpr (by simpa using Ne.symm hc)
      rw [next, if_neg hc, hcount, List.takeWhile_cons_of_pos (by simpa using hc)]
      rfl

/-- Strictly before, in the order of positions. -/
def Precedes (p q : Position) : Prop :=
  ¬ q.le p

/-- The order of positions is that of lines, and in one line that of columns. -/
theorem precedes_iff {p q : Position} :
    p.Precedes q ↔ p.line < q.line ∨ p.line = q.line ∧ p.column < q.column := by
  simp only [Precedes, le, Bool.or_eq_true, Bool.and_eq_true, decide_eq_true_eq, beq_iff_eq]
  omega

theorem Precedes.trans {p q r : Position} (hpq : p.Precedes q) (hqr : q.Precedes r) :
    p.Precedes r := by
  rw [precedes_iff] at hpq hqr ⊢
  omega

/-- Every character leads further, also a line break. -/
theorem precedes_next (p : Position) (c : Char) : p.Precedes (p.next c) := by
  rw [precedes_iff, next]
  by_cases hc : c = '\n'
  · rw [if_pos hc]
    exact .inl (Nat.lt_succ_self p.line)
  · rw [if_neg hc]
    exact .inr ⟨rfl, Nat.lt_succ_self p.column⟩

/-- Any text takes the position further. -/
theorem precedes_advance (p : Position) (c : Char) (cs : List Char) :
    p.Precedes (p.advance (c :: cs)) := by
  induction cs generalizing p c with
  | nil => exact precedes_next p c
  | cons d cs ih => exact (precedes_next p c).trans (ih (p.next c) d)

/-- A position within a text that starts at `p`: the one after a first part of it. -/
def Within (p : Position) (cs : List Char) (q : Position) : Prop :=
  ∃ before, before <+: cs ∧ q = p.advance before

namespace Within

variable {p q : Position} {c : Char} {taken rest cs : List Char}

/-- A text starts where it stands. -/
theorem start : p.Within cs p :=
  ⟨[], List.nil_prefix, rfl⟩

/-- What is within the text that comes after some text is within both. -/
theorem further (h : (p.advance taken).Within rest q) : p.Within (taken ++ rest) q := by
  obtain ⟨before, hbefore, hq⟩ := h
  refine ⟨taken ++ before, (List.prefix_append_right_inj taken).mpr hbefore, ?_⟩
  rw [advance_append]
  exact hq

/-- The same where a character is taken and as many more as a lexeme says. -/
theorem lexeme {n : Nat} (h : ((p.next c).advance (rest.take n)).Within (rest.drop n) q) :
    p.Within (c :: rest) q := by
  have hwithin : p.Within ((c :: rest.take n) ++ rest.drop n) q := further h
  rw [List.cons_append, List.take_append_drop] at hwithin
  exact hwithin

theorem precedes (h : ((p.next c).advance taken).Within rest q) : p.Precedes q := by
  obtain ⟨before, -, hq⟩ := h
  have hadvance : q = p.advance (c :: (taken ++ before)) :=
    hq.trans (advance_append (p.next c) taken before).symm
  rw [hadvance]
  exact precedes_advance p c _

end Within

end Position

/-! ## Where lexemes begin -/

namespace Token

/-- A place at which a lexeme begins: its position, the character there and what follows it. -/
structure Start where
  position : Position
  first : Char
  rest : List Char

/-- The lexeme that begins at a place. -/
def Start.lexeme (s : Start) : Lexeme :=
  Lexeme.scan s.position s.first s.rest

/-- The places at which the scanner begins a lexeme, in a text that starts at a position. -/
def startsFrom (p : Position) : List Char → List Start
  | [] => []
  | c :: rest =>
    let lexeme := Lexeme.scan p c rest
    let next := (p.next c).advance (rest.take lexeme.length)
    ⟨p, c, rest⟩ :: startsFrom next (rest.drop lexeme.length)
termination_by cs => cs.length

/-- The places at which the scanner begins a lexeme. -/
def starts (text : String) : List Start :=
  startsFrom .start text.toList

theorem startsFrom_nil (p : Position) : startsFrom p [] = [] := by
  rw [startsFrom]

theorem startsFrom_cons (p : Position) (c : Char) (rest : List Char) :
    startsFrom p (c :: rest) =
      let lexeme := Lexeme.scan p c rest
      ⟨p, c, rest⟩ :: startsFrom ((p.next c).advance (rest.take lexeme.length))
        (rest.drop lexeme.length) := by
  rw [startsFrom]

/-- The token of a lexeme, at the place where the lexeme begins. -/
def Start.token? (s : Start) : Option PlacedToken :=
  s.lexeme.token.map (⟨·, s.position⟩)

/-- A start gives a token exactly if its lexeme does, at the same place. -/
theorem Start.token?_eq_some_iff {s : Start} {t : PlacedToken} :
    s.token? = some t ↔ s.position = t.position ∧ s.lexeme.token = some t.token := by
  obtain ⟨token, p⟩ := t
  rw [token?, Option.map_eq_some_iff]
  refine ⟨?_, fun ⟨hp, ht⟩ => ⟨token, ht, by rw [hp]⟩⟩
  rintro ⟨_, ht, ⟨⟩⟩
  exact ⟨rfl, ht⟩

/-- **The scan of a text is that of its lexemes**: their tokens and their faults, in order. -/
theorem scanFrom_starts (p : Position) (cs : List Char) :
    (scanFrom p cs).tokens = (startsFrom p cs).filterMap Start.token? ∧
      (scanFrom p cs).problems = (startsFrom p cs).flatMap (·.lexeme.problems) := by
  induction p, cs using scanFrom.induct with
  | case1 p => simp [scanFrom_nil, startsFrom_nil]
  | case2 p c rest lexeme next ih =>
    obtain ⟨htokens, hproblems⟩ := ih
    rw [scanFrom_cons, startsFrom_cons]
    refine ⟨?_, congrArg (lexeme.problems ++ ·) hproblems⟩
    dsimp only
    rw [htokens, List.filterMap_cons, Start.token?, Start.lexeme]
    dsimp only
    cases (Lexeme.scan p c rest).token <;> rfl

/-- **A lexeme has the position before its first character.** -/
theorem startsFrom_placed (p : Position) (cs : List Char) : ∀ s ∈ startsFrom p cs,
    ∃ before, cs = before ++ s.first :: s.rest ∧ s.position = p.advance before := by
  induction p, cs using scanFrom.induct with
  | case1 p => simp [startsFrom_nil]
  | case2 p c rest lexeme next ih =>
    intro s hs
    rw [startsFrom_cons] at hs
    rcases List.mem_cons.mp hs with rfl | hs
    · exact ⟨[], rfl, rfl⟩
    · obtain ⟨before, hdrop, hposition⟩ := ih s hs
      refine ⟨c :: (rest.take lexeme.length ++ before), ?_, ?_⟩
      · rw [List.cons_append, List.append_assoc, ← hdrop, List.take_append_drop]
      · rw [hposition]
        exact (Position.advance_append (p.next c) _ _).symm

/-- **The positions of lexemes increase.** -/
theorem startsFrom_increasing (p : Position) (cs : List Char) :
    (startsFrom p cs).Pairwise fun s s' => s.position.Precedes s'.position := by
  induction p, cs using scanFrom.induct with
  | case1 p => simp [startsFrom_nil]
  | case2 p c rest lexeme next ih =>
    rw [startsFrom_cons]
    refine List.pairwise_cons.mpr ⟨?_, ih⟩
    intro s hs
    obtain ⟨before, hbefore, hposition⟩ := startsFrom_placed _ _ s hs
    have hwithin : next.Within (rest.drop lexeme.length) s.position :=
      ⟨before, ⟨s.first :: s.rest, hbefore.symm⟩, hposition⟩
    exact hwithin.precedes

/-! ## Tokens -/

/-- **A token has the position before its first character.** -/
theorem scanFrom_placed (p : Position) (cs : List Char) : ∀ t ∈ (scanFrom p cs).tokens,
    ∃ before c rest, cs = before ++ c :: rest ∧ t.position = p.advance before ∧
      (Lexeme.scan t.position c rest).token = some t.token := by
  intro t ht
  rw [(scanFrom_starts p cs).1] at ht
  obtain ⟨s, hs, hst⟩ := List.mem_filterMap.mp ht
  obtain ⟨hposition, htoken⟩ := Start.token?_eq_some_iff.mp hst
  obtain ⟨before, hcs, hbefore⟩ := startsFrom_placed p cs s hs
  rw [← hposition]
  exact ⟨before, s.first, s.rest, hcs, hbefore, htoken⟩

/-- The scan stops at the position after the whole text. -/
theorem scanFrom_stop (p : Position) (cs : List Char) : (scanFrom p cs).stop = p.advance cs := by
  induction p, cs using scanFrom.induct with
  | case1 p =>
    rw [scanFrom_nil]
    rfl
  | case2 p c rest lexeme next ih =>
    rw [scanFrom_cons]
    refine ih.trans ?_
    rw [← Position.advance_append, List.take_append_drop]
    rfl

/-- The positions of the tokens, and of the end behind them. -/
def Scan.positions (scan : Scan) : List Position :=
  scan.tokens.map PlacedToken.position ++ [scan.stop]

/-- **No token stands outside the text**, and neither does its end. -/
theorem scanFrom_positions (p : Position) (cs : List Char) :
    ∀ q ∈ (scanFrom p cs).positions, p.Within cs q := by
  intro q hq
  rcases List.mem_append.mp hq with hq | hq
  · obtain ⟨t, ht, rfl⟩ := List.mem_map.mp hq
    obtain ⟨before, c, rest, rfl, hposition, -⟩ := scanFrom_placed p cs t ht
    exact ⟨before, List.prefix_append before (c :: rest), hposition⟩
  · rw [List.mem_singleton.mp hq, scanFrom_stop]
    exact ⟨cs, List.prefix_rfl, rfl⟩

/-- **The positions of the tokens increase**, and the end comes last. -/
theorem scanFrom_increasing (p : Position) (cs : List Char) :
    (scanFrom p cs).positions.Pairwise Position.Precedes := by
  have htokens : (scanFrom p cs).tokens.Pairwise fun t t' => t.position.Precedes t'.position := by
    rw [(scanFrom_starts p cs).1]
    refine (startsFrom_increasing p cs).filterMap _ ?_
    intro s s' hprecedes t ht t' ht'
    rw [← (Start.token?_eq_some_iff.mp ht).1, ← (Start.token?_eq_some_iff.mp ht').1]
    exact hprecedes
  rw [Scan.positions, List.pairwise_append]
  refine ⟨List.pairwise_map.mpr htokens, List.pairwise_singleton _ _, ?_⟩
  intro q hq stop hstop
  obtain ⟨t, ht, rfl⟩ := List.mem_map.mp hq
  obtain ⟨before, c, rest, rfl, hposition, -⟩ := scanFrom_placed p cs t ht
  -- the text from the token on takes the position to the end
  rw [List.mem_singleton.mp hstop, scanFrom_stop, Position.advance_append, hposition]
  exact Position.precedes_advance (p.advance before) c rest

/-! ## Faults in spelling -/

/-- A fault in a string is reported within it. -/
theorem scanBody_within (quote : Char) (p : Position) (cs : List Char) :
    ∀ d ∈ (scanBody quote p cs).problems, p.Within cs d.position := by
  induction p, cs using scanBody.induct quote with
  | case1 p => simp [scanBody]
  | case2 p rest => simp [scanBody]
  | case3 p rest hbreak => simp [scanBody, hbreak]
  | case4 p rest e hbreak hquote inside ih =>
    intro d hd
    rw [scanBody_backslash hquote] at hd
    simp only [List.mem_append, Option.mem_toList, Option.map_eq_some_iff] at hd
    rcases hd with ⟨problem, -, rfl⟩ | hd
    -- the backslash itself has been taken
    · exact Position.Within.lexeme (n := 0) .start
    · exact (ih d hd).lexeme
  | case5 p c rest hbreak hquote hescape ih =>
    intro d hd
    rw [scanBody, if_neg hbreak, if_neg hquote, if_neg hescape] at hd
    exact Position.Within.lexeme (n := 0) (ih d hd)

namespace Lexeme

/-- A fault in a lexeme is reported within the text that starts with it. -/
theorem scan_within (p : Position) (c : Char) (rest : List Char) :
    ∀ d ∈ (scan p c rest).problems, p.Within (c :: rest) d.position := by
  apply scan_cases (P := fun lexeme => ∀ d ∈ lexeme.problems, p.Within (c :: rest) d.position)
  case plain => exact fun _ _ _ d hd => nomatch hd
  case skip => exact fun _ d hd => nomatch hd
  case fault =>
    intro length problem d hd
    rw [List.mem_singleton.mp hd]
    exact .start
  case string =>
    intro d hd
    rcases string_problems hd with hd | ⟨problem, rfl⟩
    · exact Position.Within.lexeme (n := 0) (scanBody_within c (p.next c) rest d hd)
    · exact .start

end Lexeme

/-- **No fault of the spelling is reported outside the text.** -/
theorem scanFrom_within (p : Position) (cs : List Char) :
    ∀ d ∈ (scanFrom p cs).problems, p.Within cs d.position := by
  intro d hd
  rw [(scanFrom_starts p cs).2] at hd
  obtain ⟨s, hs, hproblem⟩ := List.mem_flatMap.mp hd
  have hlexeme := Lexeme.scan_within s.position s.first s.rest d hproblem
  obtain ⟨before, rfl, hposition⟩ := startsFrom_placed p cs s hs
  rw [hposition] at hlexeme
  exact hlexeme.further

end Token

/-! ## Faults in structure -/

/-- **The parser reports at tokens and at the end.** -/
theorem Tree.tops_positions (scanned : Token.Scan) :
    ∀ d ∈ (tops scanned.stop scanned.tokens).notes, d.position ∈ scanned.positions := by
  have hstop : scanned.stop ∈ scanned.positions :=
    List.mem_append_right _ (List.mem_singleton.mpr rfl)
  -- all positions but these are sent to the end
  let φ : Position → Position := fun q => if q ∈ scanned.positions then q else scanned.stop
  have hfixed : ∀ q ∈ scanned.positions, φ q = q := fun q hq => if_pos hq
  have hinto : ∀ q, φ q ∈ scanned.positions := by
    intro q
    by_cases hq : q ∈ scanned.positions
    · rw [hfixed q hq]
      exact hq
    · rw [show φ q = scanned.stop from if_neg hq]
      exact hstop
  have htokens : scanned.tokens.map (PlacedToken.move φ) = scanned.tokens := by
    refine (List.map_congr_left fun t ht => ?_).trans (List.map_id' scanned.tokens)
    rw [PlacedToken.move, hfixed _ (List.mem_append_left _ (List.mem_map_of_mem ht))]
  -- so the parser is given what it was given before, and must note the same
  have hsame := tops_follows (φ := φ) scanned.stop scanned.tokens
  rw [hfixed _ hstop, htokens] at hsame
  intro d hd
  rw [hsame] at hd
  obtain ⟨d', -, rfl⟩ := List.mem_map.mp hd
  exact hinto d'.position

/-! ## Building -/

mutual

/-- The positions of the expressions and of the entries of a tree. -/
def Tree.places : Tree → List Position
  | .group form => form.places
  | .array items => Trees.places items
  | .expression form => form.position :: form.places
  | .integer _ | .float _ | .string _ | .bool _ | .null | .invalid => []

/-- The same for what lies inside a form. -/
def Form.places : Form → List Position
  | ⟨_, entries, _⟩ => Entries.places entries

/-- The same for a row of entries. -/
def Entries.places : List Entry → List Position
  | [] => []
  | ⟨_, tree, p⟩ :: rest => p :: (tree.places ++ Entries.places rest)

/-- The same for the items of an array. -/
def Trees.places : List Tree → List Position
  | [] => []
  | tree :: rest => tree.places ++ Trees.places rest

end

namespace Built

variable {α β : Type} {ps qs : List Position}

/-- **A result is diagnosed at some positions** if all its diagnostics are. -/
def At (ps : List Position) (b : Built α) : Prop :=
  ∀ d ∈ b.diagnostics, d.position ∈ ps

namespace At

theorem pure (a : α) : At ps (Pure.pure a : Built α) :=
  fun _ hd => nomatch hd

theorem mono {b : Built α} (h : b.At ps) (hsub : ps ⊆ qs) : b.At qs :=
  fun d hd => hsub (h d hd)

theorem bind {x : Built α} {f : α → Built β} (hx : x.At ps) (hf : ∀ a, (f a).At ps) :
    At ps (x >>= f) := by
  intro d hd
  rw [diagnostics, Noted.notes_bind, List.filterMap_append] at hd
  rcases List.mem_append.mp hd with hd | hd
  · exact hx d hd
  · exact hf x.value d hd

/-- A report is at its own place. -/
theorem report {d : Diagnostic} (h : d.position ∈ ps) : At ps (Built.report d) := by
  intro e he
  rw [List.mem_singleton.mp he]
  exact h

theorem log (severity : Severity) (message : String) (fields : List (String × String)) :
    At ps (Built.log severity message fields) :=
  fun _ hd => nomatch hd

end At

end Built

section Build

variable {registry : Registry}

/-- An expression is diagnosed where it stands, whatever its handler says. -/
theorem Tree.evaluate_at {ps : List Position} (call : Call) (hcall : call.position ∈ ps) :
    (evaluate registry call).At ps := by
  unfold evaluate
  cases registry.get? call.name with
  | none => exact (Built.At.report hcall).bind fun _ => .pure _
  | some handler =>
    have hplaced : Built.At ps ((handler call).mapNotes fun r =>
        BuildNote.diagnostic (r.place call.position)) := by
      intro d hd
      rw [Built.diagnostics, Noted.mapNotes, List.filterMap_map] at hd
      obtain ⟨r, -, hr⟩ := List.mem_filterMap.mp hd
      cases hr
      exact hcall
    exact hplaced.bind fun _ => (Built.At.log _ _ _).bind fun _ => .pure _

/-- A key that comes again is diagnosed at its entry. -/
theorem Tree.addEntry_at {ps : List Position} {p : Position} (g : Group) (d : Item)
    (hp : p ∈ ps) : (addEntry g d p).At ps := by
  unfold addEntry
  split
  · exact (Built.At.report hp).bind fun _ => .pure _
  · exact (Built.At.pure _).bind fun _ => .pure _

theorem Entries.value_places_subset (key : Option String) (tree : Tree) (p : Position)
    (rest : List Entry) : tree.places ⊆ Entries.places (⟨key, tree, p⟩ :: rest) :=
  fun _ hq => List.mem_cons_of_mem p (List.mem_append_left _ hq)

theorem Entries.rest_places_subset (key : Option String) (tree : Tree) (p : Position)
    (rest : List Entry) : Entries.places rest ⊆ Entries.places (⟨key, tree, p⟩ :: rest) :=
  fun _ hq => List.mem_cons_of_mem p (List.mem_append_right _ hq)

/-- What is reported of entries is at their places, or at those of what is inside them. -/
theorem Entries.build_at {es : List Entry}
    (hes : ∀ e ∈ es, (e.value.build registry).At e.value.places) (g : Group) :
    (Entries.build registry g es).At (Entries.places es) := by
  induction es generalizing g with
  | nil => exact .pure g
  | cons e rest ih =>
    obtain ⟨key, tree, p⟩ := e
    rw [List.forall_mem_cons] at hes
    have hrest : ∀ g : Group,
        (Entries.build registry g rest).At (Entries.places (⟨key, tree, p⟩ :: rest)) :=
      fun g => (ih hes.2 g).mono (rest_places_subset key tree p rest)
    rw [Entries.build]
    refine (hes.1.mono (value_places_subset key tree p rest)).bind fun v => ?_
    -- what is dropped leaves nothing to report
    split
    · exact hrest g
    · exact (Tree.addEntry_at g ⟨key, v⟩ List.mem_cons_self).bind hrest

theorem Entries.arguments_at {es : List Entry}
    (hes : ∀ e ∈ es, (e.value.build registry).At e.value.places) :
    (Entries.arguments registry es).At (Entries.places es) := by
  induction es with
  | nil => exact .pure []
  | cons e rest ih =>
    obtain ⟨key, tree, p⟩ := e
    rw [List.forall_mem_cons] at hes
    rw [Entries.arguments]
    refine (hes.1.mono (value_places_subset key tree p rest)).bind fun v => ?_
    exact ((ih hes.2).mono (rest_places_subset key tree p rest)).bind fun _ => .pure _

theorem Trees.build_at {trees : List Tree}
    (htrees : ∀ tree ∈ trees, (tree.build registry).At tree.places) :
    (Trees.build registry trees).At (Trees.places trees) := by
  induction trees with
  | nil => exact .pure []
  | cons tree rest ih =>
    rw [List.forall_mem_cons] at htrees
    rw [Trees.build, Trees.places]
    exact (htrees.1.mono (List.subset_append_left _ _)).bind fun _ =>
      ((ih htrees.2).mono (List.subset_append_right _ _)).bind fun _ => .pure _

/-- **The builder reports at expressions and entries** of the tree that it builds. -/
theorem Tree.build_at (tree : Tree) : (tree.build registry).At tree.places := by
  induction tree using Tree.induction with
  | group form ih =>
    obtain ⟨name, entries, p⟩ := form
    exact (Entries.build_at ih (Group.ofId name)).bind fun _ => .pure _
  | array items ih =>
    rw [Tree.build]
    exact (Trees.build_at ih).bind fun _ => .pure _
  | expression form ih =>
    obtain ⟨name, entries, p⟩ := form
    have hargs := (Entries.arguments_at ih).mono (List.subset_cons_self p _)
    rw [Tree.build]
    exact hargs.bind fun args => evaluate_at ⟨name, p, args⟩ List.mem_cons_self
  | integer _ | float _ | string _ | bool _ | null | invalid => exact .pure _

/-- A document is reported on at places of its forms only. -/
theorem Document.ofForms_at (forms : List Form) :
    (ofForms registry forms).At (forms.flatMap Form.places) := by
  induction forms with
  | nil => exact .pure []
  | cons form rest ih =>
    have hform : (form.build registry).At form.places := by
      obtain ⟨name, entries, p⟩ := form
      exact Entries.build_at (fun e _ => e.value.build_at) (Group.ofId name)
    rw [ofForms, List.flatMap_cons]
    refine (hform.mono (List.subset_append_left _ _)).bind fun _ => ?_
    refine (Built.At.log _ _ _).bind fun _ => ?_
    exact (ih.mono (List.subset_append_right _ _)).bind fun _ => .pure _

end Build

/-- **Positions are right**, in any text. A token has the position after what comes before its first
character, the positions increase from token to token up to the end of the text, which is the
position after the whole of it, and every fault in spelling or structure is reported after some
first part of the text. In the trees that are read, forms and entries have the position of their
first token. Building these reports at their expressions and entries only. -/
theorem Parsed.positions_right (text : String) :
    let scanned := Token.scan text
    let parsed := Parsed.ofText text
    (∀ t ∈ scanned.tokens, ∃ before c rest, text.toList = before ++ c :: rest ∧
      t.position = .after before ∧ (Token.Lexeme.scan t.position c rest).token = some t.token) ∧
    scanned.stop = .after text.toList ∧
    (scanned.tokens.map PlacedToken.position ++ [scanned.stop]).Pairwise Position.Precedes ∧
    (∀ d ∈ parsed.diagnostics, ∃ before, before <+: text.toList ∧ d.position = .after before) ∧
    Tree.SpansText parsed.forms scanned.tokens ∧
    ∀ (registry : Registry), ∀ d ∈ (Document.ofForms registry parsed.forms).diagnostics,
      d.position ∈ parsed.forms.flatMap Form.places := by
  intro scanned parsed
  have hwithin : ∀ q, Position.start.Within text.toList q →
      ∃ before, before <+: text.toList ∧ q = .after before := by
    rintro q ⟨before, hbefore, rfl⟩
    exact ⟨before, hbefore, Position.start_advance before⟩
  refine ⟨?_, ?_, Token.scanFrom_increasing .start text.toList, ?_, ?_, ?_⟩
  · intro t ht
    obtain ⟨before, c, rest, htext, hposition, htoken⟩ :=
      Token.scanFrom_placed .start text.toList t ht
    exact ⟨before, c, rest, htext, hposition.trans (Position.start_advance before), htoken⟩
  · exact (Token.scanFrom_stop .start text.toList).trans (Position.start_advance text.toList)
  · intro d hd
    apply hwithin
    rcases List.mem_append.mp hd with hd | hd
    · exact Token.scanFrom_within .start text.toList d hd
    · exact Token.scanFrom_positions .start text.toList _ (Tree.tops_positions scanned d hd)
  · obtain ⟨-, hspans, -⟩ := Tree.tops_takes scanned.stop scanned.tokens
    exact hspans
  · exact fun registry => Document.ofForms_at parsed.forms

end DataLisp
