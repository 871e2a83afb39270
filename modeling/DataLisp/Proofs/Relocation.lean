/-
Positions are passed on, and nothing depends on them.

No stage of reading looks at a position: the scanner counts them on, the parser and the builder
pass them to trees and diagnostics. So if tokens are moved to other places, then the trees, and
whatever is noted on the way to the document, are at those places, and else the same
(`tops_follows`); the document itself, which has no positions, is the same as before. And if a text
starts some lines further down, its tokens are the same tokens further down.

For the scanner this is an induction along its own recursion (`scanFrom_down`). For the parser it
is a relation between two parsers, the second of which does on moved tokens what the first does
(`Follows`); it is closed under everything that parsers are made of, so it holds of the grammar
step by step. Building is an induction on the tree. Handlers are given the position of their
expression, and only those that make no use of it behave alike everywhere
(`Handler.Placeless`); the standard ones do.
-/
import DataLisp.Document.Reading
import DataLisp.Proofs.Derivation
import DataLisp.Proofs.OrderedMaps

set_option autoImplicit false

namespace DataLisp

/-! ## Moving -/

/-- A diagnostic at another place. -/
def Diagnostic.move (φ : Position → Position) (d : Diagnostic) : Diagnostic :=
  { d with position := φ d.position }

/-- A token at another place. -/
def PlacedToken.move (φ : Position → Position) (t : PlacedToken) : PlacedToken :=
  { t with position := φ t.position }

mutual

/-- A tree with all its positions moved. -/
def Tree.move (φ : Position → Position) : Tree → Tree
  | .group form => .group (form.move φ)
  | .array items => .array (Trees.move φ items)
  | .expression form => .expression (form.move φ)
  | .integer i => .integer i
  | .float x => .float x
  | .string s => .string s
  | .bool b => .bool b
  | .null => .null
  | .invalid => .invalid

/-- A form with all its positions moved. -/
def Form.move (φ : Position → Position) : Form → Form
  | ⟨name, entries, p⟩ => ⟨name, Entries.move φ entries, φ p⟩

/-- Entries with all their positions moved. -/
def Entries.move (φ : Position → Position) : List Entry → List Entry
  | [] => []
  | ⟨key, tree, p⟩ :: rest => ⟨key, tree.move φ, φ p⟩ :: Entries.move φ rest

/-- The items of an array with all their positions moved. -/
def Trees.move (φ : Position → Position) : List Tree → List Tree
  | [] => []
  | tree :: rest => tree.move φ :: Trees.move φ rest

end

/-- An entry with all its positions moved. -/
def Entry.move (φ : Position → Position) (e : Entry) : Entry :=
  ⟨e.key, e.value.move φ, φ e.position⟩

section Move

variable {φ : Position → Position}

theorem Entries.move_eq (es : List Entry) : Entries.move φ es = es.map (Entry.move φ) := by
  induction es with
  | nil => rfl
  | cons e rest ih =>
    obtain ⟨key, tree, p⟩ := e
    rw [Entries.move, ih]
    rfl

theorem Trees.move_eq (trees : List Tree) : Trees.move φ trees = trees.map (Tree.move φ) := by
  induction trees with
  | nil => rfl
  | cons tree rest ih => rw [Trees.move, ih, List.map_cons]

/-- Whether a tree is an expression does not depend on where it stands. -/
theorem Tree.isExpression_move (tree : Tree) : (tree.move φ).isExpression = tree.isExpression := by
  cases tree <;> rfl

end Move

/-! ## Further down -/

/-- The position some lines further down. -/
def Position.down (n : Nat) (p : Position) : Position :=
  ⟨p.line + n, p.column⟩

/-- A diagnostic some lines further down. -/
def Diagnostic.down (n : Nat) (d : Diagnostic) : Diagnostic :=
  { d with position := d.position.down n }

/-- A token some lines further down. -/
def PlacedToken.down (n : Nat) (t : PlacedToken) : PlacedToken :=
  { t with position := t.position.down n }

/-- A form some lines further down. -/
def Form.down (n : Nat) : Form → Form :=
  Form.move (Position.down n)

section Down

variable {n : Nat}

/-- A line break starts the first column of the line below, and any other character goes on in its
line; both are so further down. -/
theorem Position.next_down (p : Position) (c : Char) : (p.down n).next c = (p.next c).down n := by
  unfold next
  split
  · rw [down, down]
    dsimp only
    rw [Nat.add_right_comm]
  · rfl

/-- Passing over a text leads equally far from any line. -/
theorem Position.advance_down (p : Position) (cs : List Char) :
    (p.down n).advance cs = (p.advance cs).down n := by
  induction cs generalizing p with
  | nil => rfl
  | cons c cs ih =>
    rw [advance, List.foldl_cons, next_down]
    exact ih (p.next c)

/-- A text counts its line breaks. -/
theorem Position.line_advance (p : Position) (cs : List Char) :
    (p.advance cs).line = p.line + cs.count '\n' := by
  induction cs generalizing p with
  | nil => rfl
  | cons c cs ih =>
    have hstep := ih (p.next c)
    rw [advance, List.foldl_cons, ← advance, hstep, List.count_cons, next]
    by_cases hc : c = '\n'
    · simp [hc]
      omega
    · simp [hc]

/-- Whether there are errors does not depend on where they are. -/
theorem Diagnostics.hasErrors_down (ds : Diagnostics) :
    Diagnostics.hasErrors (ds.map (Diagnostic.down n)) = ds.hasErrors := by
  rw [Diagnostics.hasErrors, List.any_map]
  rfl

end Down

/-! ## Scanning -/

namespace Token

section Scanning

variable {n : Nat}

/-- The inside of a string, its faults some lines further down. -/
def Body.down (n : Nat) (body : Body) : Body :=
  { body with problems := body.problems.map (Diagnostic.down n) }

/-- A lexeme, its faults some lines further down. -/
def Lexeme.down (n : Nat) (lexeme : Lexeme) : Lexeme :=
  { lexeme with problems := lexeme.problems.map (Diagnostic.down n) }

/-- A scan some lines further down. -/
def Scan.down (n : Nat) (scan : Scan) : Scan :=
  ⟨scan.tokens.map (PlacedToken.down n), scan.stop.down n,
    scan.problems.map (Diagnostic.down n)⟩

/-- The inside of a string is read alike, and its faults are found at places further down. -/
theorem scanBody_down (quote : Char) (p : Position) (cs : List Char) :
    scanBody quote (p.down n) cs = (scanBody quote p cs).down n := by
  induction p, cs using scanBody.induct quote with
  | case1 p => rw [scanBody, scanBody]; rfl
  | case2 p rest => rw [scanBody, scanBody, if_pos rfl, if_pos rfl]; rfl
  | case3 p rest hbreak =>
    rw [scanBody, scanBody, if_neg hbreak, if_neg hbreak, if_pos rfl, if_pos rfl]
    rfl
  | case4 p rest e hbreak hquote inside ih =>
    rw [scanBody_backslash hquote, scanBody_backslash hquote]
    dsimp only
    rw [Position.next_down, Position.advance_down, ih, Body.down, Body.down]
    dsimp only
    rw [List.map_append]
    congr 2
    cases (Escape.scan rest).problem <;> rfl
  | case5 p c rest hbreak hquote hescape ih =>
    rw [scanBody, scanBody, if_neg hbreak, if_neg hbreak, if_neg hquote, if_neg hquote,
      if_neg hescape, if_neg hescape]
    dsimp only
    rw [Position.next_down, ih]
    rfl

namespace Lexeme

/-- A string literal: its own faults are reported at the opening quote, those of its inside where
they are. -/
theorem down_string (p : Position) (quote : Char) (rest : List Char) :
    string (p.down n) quote rest = (string p quote rest).down n := by
  have hreport : ∀ problem : Problem, problem.report (p.down n) = (problem.report p).down n :=
    fun _ => rfl
  unfold string
  rw [Position.next_down, scanBody_down]
  dsimp only [Body.down]
  cases (scanBody quote (p.next quote) rest).closed <;>
    cases Text.Utf8.decode? (scanBody quote (p.next quote) rest).bytes <;>
      simp [down, hreport]

/-- A number has no place of its own to report but that of its first character. -/
theorem down_number (p : Position) (cs : List Char) :
    number (p.down n) cs = (number p cs).down n := by
  unfold number
  dsimp only
  split
  · rfl
  split
  · rfl
  · rfl

/-- One lexeme, of whatever kind, is as long and gives the same token further down. -/
theorem scan_down (p : Position) (c : Char) (rest : List Char) :
    scan (p.down n) c rest = (scan p c rest).down n := by
  have hplain : ∀ token length, (plain token length).down n = plain token length :=
    fun _ _ => rfl
  have hskip : ∀ length, (skip length).down n = skip length := fun _ => rfl
  have hfault : ∀ length problem,
      (fault p length problem).down n = fault (p.down n) length problem := fun _ _ => rfl
  simp only [scan, apply_ite (Lexeme.down n), hplain, hskip, hfault, down_string, down_number]

end Lexeme

/-- **Scanning further down.** -/
theorem scanFrom_down (p : Position) (cs : List Char) :
    scanFrom (p.down n) cs = (scanFrom p cs).down n := by
  induction p, cs using scanFrom.induct with
  | case1 p =>
    rw [scanFrom_nil, scanFrom_nil]
    rfl
  | case2 p c rest lexeme next ih =>
    rw [scanFrom_cons, scanFrom_cons, Lexeme.scan_down]
    dsimp only [Lexeme.down]
    rw [Position.next_down, Position.advance_down, ih]
    dsimp only [Scan.down]
    rw [List.map_append, List.map_append]
    congr 2
    cases (Lexeme.scan p c rest).token <;> rfl

end Scanning

end Token

/-! ## Parsing -/

namespace Tree

open DataLisp.Tree.Parser

/-- **One parser follows another** if on moved tokens it does what the other does: what it gives is
related by a function, and the tokens left and the notes are moved. -/
def Follows {α β : Type} (φ : Position → Position) (g : α → β) (x : Parser α) (y : Parser β) :
    Prop :=
  ∀ stop tokens, y (φ stop) (tokens.map (PlacedToken.move φ)) =
    ⟨(g (x stop tokens).value.1, (x stop tokens).value.2.map (PlacedToken.move φ)),
      (x stop tokens).notes.map (Diagnostic.move φ)⟩

namespace Follows

variable {φ : Position → Position} {α β γ δ : Type} {g : α → β} {h : γ → δ}

/-- Giving a value takes no token and notes nothing. -/
theorem pure (a : α) : Follows φ g (Pure.pure a) (Pure.pure (g a)) :=
  fun _ _ => rfl

/-- One after the other: if the first parsers follow each other, then the second start from moved
tokens again. -/
theorem bind {x : Parser α} {y : Parser β} {f : α → Parser γ} {f' : β → Parser δ}
    (hx : Follows φ g x y) (hf : ∀ a, Follows φ h (f a) (f' (g a))) :
    Follows φ h (x >>= f) (y >>= f') := by
  intro stop tokens
  have hnext := hf (x stop tokens).value.1 stop (x stop tokens).value.2
  rw [bind_apply, bind_apply, hx stop tokens, Noted.value_bind, Noted.notes_bind, List.map_append]
  show Noted.mk _ (_ ++ _) = _
  dsimp only
  rw [hnext]

/-- Where nothing but the next token decides, both parsers go on alike. -/
theorem head_move (tokens : List PlacedToken) :
    (tokens.map (PlacedToken.move φ)).head?.map PlacedToken.token =
      tokens.head?.map PlacedToken.token := by
  cases tokens <;> rfl

/-- The next token is the same wherever it stands. -/
theorem peek : Follows φ id Parser.peek Parser.peek := by
  intro stop tokens
  rw [peek_apply, peek_apply, head_move]
  rfl

/-- The place of the next token is where that place is moved to, also at the end of the text. -/
theorem position : Follows φ φ Parser.position Parser.position := by
  intro stop tokens
  rw [position_apply, position_apply]
  cases tokens <;> rfl

/-- Passing over a token leaves the moved rest. -/
theorem skip : Follows φ id Parser.skip Parser.skip := by
  intro stop tokens
  rw [skip_apply, skip_apply, ← List.map_tail]
  rfl

/-- A fault that is reported at a place is reported at the place moved. -/
theorem reportAt (p : Position) (problem : Problem) :
    Follows φ id (Parser.reportAt p problem) (Parser.reportAt (φ p) problem) :=
  fun _ _ => rfl

/-- A fault at the next token is reported where that token is moved to. -/
theorem report (problem : Problem) : Follows φ id (Parser.report problem) (Parser.report problem) :=
  position.bind fun p => reportAt p problem

/-- Taking a wanted token, if it comes next. -/
theorem eat (wanted : Token) : Follows φ id (Parser.eat wanted) (Parser.eat wanted) := by
  refine peek.bind fun got => ?_
  dsimp only [id]
  split
  · exact skip.bind fun _ => pure true
  · exact pure false

/-- Asking for a wanted token, with a report if another comes. -/
theorem expect (wanted : Token) : Follows φ id (Parser.expect wanted) (Parser.expect wanted) := by
  refine (eat wanted).bind fun eaten => ?_
  dsimp only [id]
  split
  · exact pure ()
  · exact peek.bind fun got => report _

/-- **Repetition.** The induction is on the number of tokens left, as the loop goes on only if a
turn has taken some. -/
theorem many {starts : Token → Bool} {x : Parser α} {y : Parser β} (hx : Follows φ g x y) :
    Follows φ (List.map g) (Parser.many starts x) (Parser.many starts y) := by
  intro stop tokens
  induction hlength : tokens.length using Nat.strong_induction_on generalizing tokens with
  | _ length ih =>
    subst hlength
    have hstart : (tokens.map (PlacedToken.move φ)).head?.any (fun t => starts t.token) =
        tokens.head?.any (fun t => starts t.token) := by
      cases tokens <;> rfl
    rw [Parser.many, Parser.many, hstart]
    -- a turn takes as many of the moved tokens, so both loops go on or both end
    split
    · dsimp only
      rw [hx stop tokens]
      dsimp only
      rw [List.length_map, List.length_map]
      split
      · rename_i hshort
        dsimp only
        rw [ih _ hshort _ rfl, List.map_append]
        rfl
      · rfl
    · rfl

end Follows

section Grammar

variable {φ : Position → Position}

/-- The name of a form. -/
theorem name_follows : Follows φ id name name := by
  refine Follows.peek.bind fun got => ?_
  dsimp only [id]
  split
  · exact Follows.skip.bind fun _ => .pure _
  · exact (Follows.report _).bind fun _ => .pure _

/-- A key, or one of the faults of a key. -/
theorem key_follows : Follows φ id key key := by
  refine Follows.peek.bind fun got => ?_
  dsimp only [id]
  split
  · exact Follows.skip.bind fun _ => .pure _
  · split
    · exact Follows.skip.bind fun _ => .pure _
    · exact (Follows.report _).bind fun _ => Follows.skip.bind fun _ => .pure _
  · exact (Follows.report _).bind fun _ => .pure _

/-- A scalar, or what is put in its place when a number is out of range. -/
theorem scalar_follows : Follows φ (Tree.move φ) scalar scalar := by
  refine Follows.peek.bind fun got => ?_
  dsimp only [id]
  split
  · split
    · exact Follows.skip.bind fun _ => .pure _
    · exact (Follows.report _).bind fun _ => Follows.skip.bind fun _ => .pure _
  · exact Follows.skip.bind fun _ => .pure _
  · exact Follows.skip.bind fun _ => .pure _
  · exact Follows.skip.bind fun _ => .pure _
  · exact Follows.skip.bind fun _ => .pure _
  · exact (Follows.report _).bind fun _ => .pure _

variable {read : Parser Tree} (hread : Follows φ (Tree.move φ) read read)
include hread

/-- An entry stands where its colon or its value starts. -/
theorem entry_follows : Follows φ (Entry.move φ) (entry read) (entry read) := by
  refine Follows.position.bind fun p => (Follows.eat _).bind fun eaten => ?_
  -- what follows is the same with and without a key
  have hvalue : ∀ key : Option String, Follows φ (Entry.move φ)
      (do
        let value ← read
        return (⟨key, value, p⟩ : Entry))
      (do
        let value ← read
        return (⟨key, value, φ p⟩ : Entry)) := fun key => hread.bind fun _ => .pure _
  dsimp only [id]
  split
  · exact key_follows.bind hvalue
  · exact (Follows.pure (g := id) none).bind hvalue

/-- A row of entries with commas where there are any. -/
theorem entries_follows : Follows φ (List.map (Entry.move φ)) (entries read) (entries read) :=
  .many ((entry_follows hread).bind fun _ => (Follows.eat _).bind fun _ => .pure _)

/-- The items of an array; a key that must not be there is reported at its entry. -/
theorem items_follows : Follows φ (List.map (Tree.move φ)) (items read) (items read) := by
  refine .many ((entry_follows hread).bind fun e => ?_)
  have hcomma : Follows φ (Tree.move φ)
      (do let _ ← eat .comma; return e.value : Parser Tree)
      (do let _ ← eat .comma; return (e.move φ).value : Parser Tree) :=
    (Follows.eat _).bind fun _ => .pure _
  have hkey : (e.move φ).key = e.key := rfl
  dsimp only
  rw [hkey]
  split
  · exact (Follows.reportAt e.position _).bind fun _ => hcomma
  · exact hcomma

/-- A group, whose form stands at the opening parenthesis. -/
theorem groupForm_follows (p : Position) :
    Follows φ (Form.move φ) (groupForm read p) (groupForm read (φ p)) := by
  refine name_follows.bind fun _ => (Follows.eat _).bind fun _ =>
    (entries_follows hread).bind fun es => ?_
  rw [← Entries.move_eq]
  exact .pure (g := Form.move φ) _

/-- An expression, whose form stands at the opening token too. -/
theorem expressionForm_follows (p : Position) :
    Follows φ (Form.move φ) (expressionForm read p) (expressionForm read (φ p)) := by
  refine name_follows.bind fun _ => (entries_follows hread).bind fun es => ?_
  rw [← Entries.move_eq]
  exact .pure (g := Form.move φ) _

end Grammar

/-- Passing over a value that is too deep counts brackets and looks at nothing else. -/
theorem dropBalanced_move {φ : Position → Position} (depth : Nat) (tokens : List PlacedToken) :
    dropBalanced depth (tokens.map (PlacedToken.move φ)) =
      (dropBalanced depth tokens).map (PlacedToken.move φ) := by
  induction tokens generalizing depth with
  | nil => rfl
  | cons t rest ih =>
    have htoken : (t.move φ).token = t.token := rfl
    rw [List.map_cons, dropBalanced, dropBalanced, htoken]
    split
    · exact ih _
    split
    · split
      · rfl
      · exact ih _
    · exact ih _

/-- A value with so many levels left to it. The induction is on the levels, the rules above being
about one level each. -/
theorem value_follows {φ : Position → Position} (levels : Nat) :
    Follows φ (Tree.move φ) (value levels) (value levels) := by
  induction levels with
  | zero =>
    refine Follows.peek.bind fun got => ?_
    dsimp only [id]
    split
    · have hdrop : Follows φ id (modify (dropBalanced 0)) (modify (dropBalanced 0)) := by
        intro stop tokens
        show Noted.mk ((), dropBalanced 0 (tokens.map (PlacedToken.move φ))) [] = _
        rw [dropBalanced_move]
        rfl
      exact (Follows.report _).bind fun _ => hdrop.bind fun _ => .pure _
    · exact scalar_follows
  | succ levels ih =>
    refine Follows.position.bind fun p => Follows.peek.bind fun got => ?_
    dsimp only [id]
    split
    · exact Follows.skip.bind fun _ => (groupForm_follows ih p).bind fun _ =>
        (Follows.expect _).bind fun _ => .pure _
    · refine Follows.skip.bind fun _ => (items_follows ih).bind fun _ =>
        (Follows.expect _).bind fun _ => ?_
      rw [← Trees.move_eq]
      exact .pure (g := Tree.move φ) _
    · exact Follows.skip.bind fun _ => (expressionForm_follows ih p).bind fun _ =>
        (Follows.expect _).bind fun _ => .pure _
    · exact scalar_follows

/-- A top-level group, or the report of a token that starts none. -/
theorem top_follows {φ : Position → Position} : Follows φ (Option.map (Form.move φ)) top top := by
  refine Follows.position.bind fun p => Follows.peek.bind fun got => ?_
  dsimp only [id]
  split
  · exact Follows.skip.bind fun _ => (groupForm_follows (value_follows _) p).bind fun _ =>
      (Follows.expect _).bind fun _ => .pure _
  · exact (Follows.report _).bind fun _ => Follows.skip.bind fun _ => .pure _
  · exact .pure _

/-- **Parsing moved tokens.** -/
theorem tops_follows {φ : Position → Position} : Follows φ (List.map (Form.move φ)) tops tops := by
  refine top_follows.many.bind fun forms => ?_
  have hforms : (forms.map (Option.map (Form.move φ))).filterMap id =
      (forms.filterMap id).map (Form.move φ) := by
    rw [List.filterMap_map, List.map_filterMap]
    rfl
  rw [hforms]
  exact .pure (g := List.map (Form.move φ)) _

/-- **Parsing further down.** -/
theorem tops_down (n : Nat) (stop : Position) (tokens : List PlacedToken) :
    tops (stop.down n) (tokens.map (PlacedToken.down n)) =
      ⟨((tops stop tokens).value.1.map (Form.down n),
        (tops stop tokens).value.2.map (PlacedToken.down n)),
        (tops stop tokens).notes.map (Diagnostic.down n)⟩ :=
  tops_follows stop tokens

end Tree

/-! ## Building -/

section MapNotes

variable {ν μ ξ α β : Type} (f : ν → μ)

theorem Noted.mapNotes_mapNotes (h : μ → ξ) (x : Noted ν α) :
    (x.mapNotes f).mapNotes h = x.mapNotes (h ∘ f) := by
  rw [mapNotes, mapNotes, mapNotes, List.map_map]

/-- Notes are changed one by one, so a step and what follows it can be changed apart. -/
theorem Noted.mapNotes_bind (x : Noted ν α) (k : α → Noted ν β) :
    (x >>= k).mapNotes f = (x.mapNotes f >>= fun a => (k a).mapNotes f) := by
  show Noted.mk _ (List.map f (x.notes ++ (k x.value).notes)) = _
  rw [List.map_append]
  rfl

end MapNotes

/-- A note at another place; the log has no positions. -/
def BuildNote.move (φ : Position → Position) : BuildNote → BuildNote
  | .diagnostic d => .diagnostic (d.move φ)
  | .event e => .event e

/-- A note some lines further down. -/
def BuildNote.down (n : Nat) : BuildNote → BuildNote :=
  BuildNote.move (Position.down n)

/-- A handler that makes no use of the position of its expression. -/
def Handler.Placeless (handler : Handler) : Prop :=
  ∀ (call : Call) (p : Position), handler { call with position := p } = handler call

/-- A registry of such handlers. -/
def Registry.Placeless (registry : Registry) : Prop :=
  ∀ entry ∈ registry, Handler.Placeless entry.2

/-- **The standard handlers** make no use of positions. -/
theorem placeless_standard : Registry.standard.Placeless := by
  simp only [Registry.Placeless, Registry.standard, List.forall_mem_cons, List.not_mem_nil,
    false_implies, implies_true, and_true]
  exact ⟨fun _ _ => rfl, fun _ _ => rfl, fun _ _ => rfl, fun _ _ => rfl, fun _ _ => rfl,
    fun _ _ => rfl, fun _ _ => rfl, fun _ _ => rfl⟩

section Build

variable {registry : Registry} {φ : Position → Position}

/-- An expression at another place is evaluated alike, if its handler makes no use of the place; an
unknown name is reported at that place. -/
theorem Tree.evaluate_move (hregistry : registry.Placeless) (name : String) (p : Position)
    (args : List Item) :
    evaluate registry ⟨name, φ p, args⟩ =
      (evaluate registry ⟨name, p, args⟩).mapNotes (BuildNote.move φ) := by
  unfold evaluate
  cases hget : registry.get? name with
  | none => rfl
  | some handler =>
    have hplaceless :=
      hregistry (name, handler) (OrderedMap.mem_of_get? hget) ⟨name, p, args⟩ (φ p)
    dsimp only at hplaceless ⊢
    rw [hplaceless, Noted.mapNotes_bind, Noted.mapNotes_mapNotes]
    rfl

/-- The same entries are dropped. -/
theorem Tree.isDropped_move (key : Option String) (tree : Tree) (v : Value) :
    isDropped key (tree.move φ) v = isDropped key tree v := by
  rw [isDropped, isDropped, isExpression_move]

/-- A repeated key is reported at its entry, wherever that has been moved. -/
theorem Tree.addEntry_move (g : Group) (d : Item) (p : Position) :
    addEntry g d (φ p) = (addEntry g d p).mapNotes (BuildNote.move φ) := by
  unfold addEntry
  split <;> rfl

/-- The entries of a group, given that their values are built alike. -/
theorem Entries.build_move {es : List Entry}
    (hes : ∀ e ∈ es, (e.value.move φ).build registry =
      (e.value.build registry).mapNotes (BuildNote.move φ)) (g : Group) :
    Entries.build registry g (Entries.move φ es) =
      (Entries.build registry g es).mapNotes (BuildNote.move φ) := by
  induction es generalizing g with
  | nil => rfl
  | cons e rest ih =>
    obtain ⟨key, tree, p⟩ := e
    rw [List.forall_mem_cons] at hes
    rw [Entries.move, Entries.build, Entries.build, hes.1, Noted.mapNotes_bind]
    congr 1
    funext v
    rw [Tree.isDropped_move]
    split
    · exact ih hes.2 g
    · rw [Tree.addEntry_move, Noted.mapNotes_bind]
      congr 1
      funext g'
      exact ih hes.2 g'

/-- The same for the arguments of an expression. -/
theorem Entries.arguments_move {es : List Entry}
    (hes : ∀ e ∈ es, (e.value.move φ).build registry =
      (e.value.build registry).mapNotes (BuildNote.move φ)) :
    Entries.arguments registry (Entries.move φ es) =
      (Entries.arguments registry es).mapNotes (BuildNote.move φ) := by
  induction es with
  | nil => rfl
  | cons e rest ih =>
    obtain ⟨key, tree, p⟩ := e
    rw [List.forall_mem_cons] at hes
    rw [Entries.move, Entries.arguments, Entries.arguments, hes.1, Noted.mapNotes_bind]
    congr 1
    funext v
    rw [ih hes.2, Noted.mapNotes_bind]
    rfl

/-- The same for the items of an array. -/
theorem Trees.build_move {trees : List Tree}
    (htrees : ∀ tree ∈ trees, (tree.move φ).build registry =
      (tree.build registry).mapNotes (BuildNote.move φ)) :
    Trees.build registry (Trees.move φ trees) =
      (Trees.build registry trees).mapNotes (BuildNote.move φ) := by
  induction trees with
  | nil => rfl
  | cons tree rest ih =>
    rw [List.forall_mem_cons] at htrees
    rw [Trees.move, Trees.build, Trees.build, htrees.1, Noted.mapNotes_bind]
    congr 1
    funext v
    rw [ih htrees.2, Noted.mapNotes_bind, Tree.isDropped_move]
    rfl

theorem Form.build_move {form : Form} (h : ∀ e ∈ form.entries, (e.value.move φ).build registry =
    (e.value.build registry).mapNotes (BuildNote.move φ)) :
    (form.move φ).build registry = (form.build registry).mapNotes (BuildNote.move φ) := by
  obtain ⟨name, entries, p⟩ := form
  exact Entries.build_move h (Group.ofId name)

/-- **Building moved trees** gives the same value, and notes the same at other places. -/
theorem Tree.build_move (hregistry : registry.Placeless) (tree : Tree) :
    (tree.move φ).build registry = (tree.build registry).mapNotes (BuildNote.move φ) := by
  induction tree using Tree.induction with
  | group form ih =>
    rw [Tree.move, Tree.build, Tree.build, Form.build_move ih, Noted.mapNotes_bind]
    rfl
  | array items ih =>
    rw [Tree.move, Tree.build, Tree.build, Trees.build_move ih, Noted.mapNotes_bind]
    rfl
  | expression form ih =>
    obtain ⟨name, entries, p⟩ := form
    rw [Tree.move, Form.move, Tree.build, Tree.build, Entries.arguments_move ih,
      Noted.mapNotes_bind]
    congr 1
    funext args
    exact evaluate_move hregistry name p args
  | integer _ | float _ | string _ | bool _ | null | invalid => rfl

/-- **Building moved forms** gives the same document, with its notes at other places. -/
theorem Document.ofForms_move (hregistry : registry.Placeless) (forms : List Form) :
    ofForms registry (forms.map (Form.move φ)) =
      (ofForms registry forms).mapNotes (BuildNote.move φ) := by
  induction forms with
  | nil => rfl
  | cons form rest ih =>
    have hform : (form.move φ).build registry =
        (form.build registry).mapNotes (BuildNote.move φ) :=
      Form.build_move fun e _ => e.value.build_move hregistry
    rw [List.map_cons, ofForms, ofForms, hform, Noted.mapNotes_bind]
    congr 1
    funext g
    rw [ih, Noted.mapNotes_bind]
    congr 1
    funext _
    rw [Noted.mapNotes_bind]
    rfl

theorem Document.ofForms_down {n : Nat} (hregistry : registry.Placeless) (forms : List Form) :
    ofForms registry (forms.map (Form.down n)) =
      (ofForms registry forms).mapNotes (BuildNote.down n) :=
  ofForms_move hregistry forms

end Build

end DataLisp
