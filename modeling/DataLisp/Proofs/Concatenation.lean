/-
One document after the other.

If a text is read, then whatever is put after it on a new line is read as if it stood alone: the
document is that of the first text followed by that of the second, and what is wrong with the
second is reported further down (`Document.read_append`). Nothing that the first text leaves open
can reach the second, because reading it has seen to that at every stage.

The scanner stops at the line break: strings are closed and escapes complete, or there would be a
fault, and everything else ends at a line break (`Lexeme.endsAtBreak_scan`). So the tokens of the
two texts stand one after the other, the later ones at lines further down (`scanFrom_append`). The
parser has taken all tokens of the first text group by group, and goes on with the others as at
the start (`tops_append`). The builder goes from form to form anyway (`ofForms_append`).
-/
import DataLisp.Proofs.Relocation
import DataLisp.Proofs.RoundTrip

set_option autoImplicit false

namespace DataLisp

/-! ## What ends at a line break -/

section Stop

variable {stop : Char} {p : Char → Bool}

/-- A run that the break ends does not depend on what follows the break. -/
theorem takeWhile_stop (h : p stop = false) (cs ds : List Char) :
    (cs ++ stop :: ds).takeWhile p = cs.takeWhile p := by
  induction cs with
  | nil => simp [h]
  | cons c cs ih =>
    rw [List.cons_append, List.takeWhile_cons, List.takeWhile_cons, ih]

theorem dropWhile_stop (h : p stop = false) (cs ds : List Char) :
    (cs ++ stop :: ds).dropWhile p = cs.dropWhile p ++ stop :: ds := by
  induction cs with
  | nil => simp [h]
  | cons c cs ih =>
    rw [List.cons_append, List.dropWhile_cons, List.dropWhile_cons, ih]
    split <;> rfl

end Stop

theorem Sign.scan_append (cs ds : List Char) :
    Sign.scan (cs ++ '\n' :: ds) = ((Sign.scan cs).1, (Sign.scan cs).2 ++ '\n' :: ds) := by
  cases cs with
  | nil => rfl
  | cons c cs =>
    rw [List.cons_append, scan, scan]
    cases ofChar? c <;> rfl

theorem Exponent.scan_append (cs ds : List Char) :
    Exponent.scan (cs ++ '\n' :: ds) =
      ((Exponent.scan cs).1, (Exponent.scan cs).2 ++ '\n' :: ds) := by
  cases cs with
  | nil => rfl
  | cons c cs =>
    rw [List.cons_append, scan, scan]
    split
    · rw [Sign.scan_append]
      dsimp only
      rw [takeWhile_stop rfl, dropWhile_stop rfl]
    · rfl

theorem Numeral.scanFraction_append (cs ds : List Char) :
    scanFraction (cs ++ '\n' :: ds) =
      ((scanFraction cs).1, (scanFraction cs).2 ++ '\n' :: ds) := by
  cases cs with
  | nil => rfl
  | cons c cs =>
    by_cases hc : c = '.'
    · subst hc
      rw [List.cons_append, scanFraction, scanFraction, takeWhile_stop rfl, dropWhile_stop rfl]
    · simp [scanFraction, hc]

/-- No numeral goes on over a line break. -/
theorem Numeral.scan_append (cs ds : List Char) :
    Numeral.scan (cs ++ '\n' :: ds) = ((Numeral.scan cs).1, (Numeral.scan cs).2 ++ '\n' :: ds) := by
  have hbreak : Char.isDigit '\n' = false := by decide
  simp only [scan, Sign.scan_append, takeWhile_stop hbreak, dropWhile_stop hbreak,
    scanFraction_append, Exponent.scan_append]

namespace Token

/-! ## Lexemes -/

/-- A numeric escape without a fault is complete, so more characters do not change it. -/
theorem Escape.numeric_append {width : Nat} {cs : List Char}
    {give : Nat → List UInt8 × Option Problem} (h : (numeric width cs give).problem = none)
    (ds : List Char) :
    numeric width (cs ++ ds) give = numeric width cs give ∧
      (numeric width cs give).length ≤ cs.length + 1 := by
  unfold numeric at h ⊢
  dsimp only at h ⊢
  split at h
  · rename_i hwidth
    have hroom : width ≤ cs.length := by
      have hle := (List.takeWhile_sublist (p := Text.isHexDigit) (l := cs.take width)).length_le
      rw [hwidth, List.length_take] at hle
      omega
    rw [List.take_append_of_le_length hroom, if_pos hwidth]
    exact ⟨rfl, by dsimp only; omega⟩
  · cases h

/-- An escape without a fault is complete. -/
theorem Escape.scan_append {cs : List Char} (h : (Escape.scan cs).problem = none)
    (ds : List Char) :
    Escape.scan (cs ++ ds) = Escape.scan cs ∧ (Escape.scan cs).length ≤ cs.length := by
  unfold Escape.scan at h
  split at h
  · cases h
  · exact ⟨rfl, by simp [Escape.scan]⟩
  · exact Escape.numeric_append h ds
  · exact Escape.numeric_append h ds
  · exact Escape.numeric_append h ds
  · rename_i c rest hbreak hx hu hU
    have hsame : ∀ more,
        Escape.scan (c :: more) = ⟨Text.Utf8.encodeChar (mnemonic c), none, 1⟩ := by
      intro more
      unfold Escape.scan
      split
      all_goals simp_all
    rw [List.cons_append, hsame, hsame]
    exact ⟨rfl, by simp⟩

/-- A string that is closed without a fault ends at its quote. -/
theorem scanBody_append {quote : Char} {p : Position} {cs : List Char}
    (hproblems : (scanBody quote p cs).problems = [])
    (hclosed : (scanBody quote p cs).closed = true) (ds : List Char) :
    scanBody quote p (cs ++ ds) = scanBody quote p cs ∧
      (scanBody quote p cs).length ≤ cs.length := by
  induction p, cs using scanBody.induct quote with
  | case1 p => simp [scanBody] at hclosed
  | case2 p rest => simp [scanBody] at hclosed
  | case3 p rest hbreak => simp [scanBody, hbreak]
  | case4 p rest e hbreak hquote inside ih =>
    dsimp only [e, inside] at ih
    rw [List.cons_append, scanBody_backslash hquote, scanBody_backslash hquote]
    rw [scanBody_backslash hquote] at hproblems hclosed
    dsimp only at hproblems hclosed ⊢
    obtain ⟨hescape, hbody⟩ := List.append_eq_nil_iff.mp hproblems
    obtain ⟨hsame, hroom⟩ := Escape.scan_append (by simpa using hescape) ds
    obtain ⟨hrest, hlength⟩ := ih hbody hclosed
    rw [hsame, List.take_append_of_le_length hroom, List.drop_append_of_le_length hroom, hrest]
    rw [List.length_drop] at hlength
    refine ⟨rfl, ?_⟩
    rw [List.length_cons]
    omega
  | case5 p c rest hbreak hquote hescape ih =>
    have hnext : p.advance [c] = p.next c := rfl
    rw [List.cons_append, scanBody_plain hbreak hquote hescape,
      scanBody_plain hbreak hquote hescape, hnext]
    rw [scanBody_plain hbreak hquote hescape] at hproblems hclosed
    obtain ⟨hrest, hlength⟩ := ih hproblems hclosed
    rw [hrest]
    refine ⟨rfl, ?_⟩
    dsimp only
    rw [List.length_cons]
    omega

namespace Lexeme

/-- A lexeme ends at a line break or before it. Of the two lexemes the first is found where only
`rest` follows its first character, the second where a line break and further text come after
that. Unless the first is faulty, they are the same, and take nothing from what comes after. -/
def EndsAtBreak (rest : List Char) (lexeme more : Lexeme) : Prop :=
  lexeme.problems = [] → more = lexeme ∧ lexeme.length ≤ rest.length

section EndsAtBreak

variable {rest : List Char}

theorem endsAtBreak_same {lexeme : Lexeme} (h : lexeme.length ≤ rest.length) :
    EndsAtBreak rest lexeme lexeme :=
  fun _ => ⟨rfl, h⟩

/-- A fault is excused from ending at the break. -/
theorem endsAtBreak_fault (p : Position) (length : Nat) (problem : Problem) (more : Lexeme) :
    EndsAtBreak rest (fault p length problem) more :=
  fun h => (List.cons_ne_nil _ _ h).elim

theorem endsAtBreak_ite {condition : Prop} [Decidable condition] {yes no yes' no' : Lexeme}
    (hyes : condition → EndsAtBreak rest yes yes') (hno : ¬condition → EndsAtBreak rest no no') :
    EndsAtBreak rest (if condition then yes else no) (if condition then yes' else no') := by
  split
  · exact hyes ‹_›
  · exact hno ‹_›

/-- A lexeme that is a run ends at the break, if the run does. -/
theorem endsAtBreak_takeWhile {p : Char → Bool} (h : p '\n' = false) (ds : List Char)
    (lexeme : List Char → Lexeme) (hlength : ∀ run, (lexeme run).length = run.length) :
    EndsAtBreak rest (lexeme (rest.takeWhile p)) (lexeme ((rest ++ '\n' :: ds).takeWhile p)) := by
  rw [takeWhile_stop h]
  refine endsAtBreak_same ?_
  rw [hlength]
  exact (List.takeWhile_sublist _).length_le

/-- A string without a fault is closed, and what is inside it does not depend on what follows. -/
theorem endsAtBreak_string (p : Position) (quote : Char) (ds : List Char) :
    EndsAtBreak rest (string p quote rest) (string p quote (rest ++ '\n' :: ds)) := by
  intro h
  have hbody : (scanBody quote (p.next quote) rest).problems = [] ∧
      (scanBody quote (p.next quote) rest).closed = true := by
    unfold string at h
    dsimp only at h
    split at h
    · simpa using h
    · simp at h
  obtain ⟨hsame, hlength⟩ := scanBody_append hbody.1 hbody.2 ('\n' :: ds)
  rw [string, string, hsame]
  refine ⟨rfl, ?_⟩
  split
  · exact hlength
  · exact hlength

/-- A number holds no line break. -/
theorem endsAtBreak_number (p : Position) (c : Char) (ds : List Char) :
    EndsAtBreak rest (number p (c :: rest)) (number p (c :: (rest ++ '\n' :: ds))) := by
  have hsame : number p (c :: (rest ++ '\n' :: ds)) = number p (c :: rest) := by
    rw [← List.cons_append, number, number, Numeral.scan_append]
  rw [hsame]
  refine endsAtBreak_same ?_
  have hchars := congrArg List.length (Numeral.chars_scan (c :: rest))
  rw [List.length_append, List.length_cons] at hchars
  have hlength : (number p (c :: rest)).length = (Numeral.scan (c :: rest)).1.chars.length - 1 := by
    unfold number
    dsimp only
    split
    · rfl
    split
    · rfl
    · rfl
  omega

/-- No lexeme without a fault goes on over a line break: the classes of first characters one
after another. -/
theorem endsAtBreak_scan (p : Position) (c : Char) (rest ds : List Char) :
    EndsAtBreak rest (scan p c rest) (scan p c (rest ++ '\n' :: ds)) := by
  have hskip : EndsAtBreak rest (skip 0) (skip 0) := endsAtBreak_same (Nat.zero_le _)
  have hmark : ∀ token, EndsAtBreak rest (plain token 0) (plain token 0) :=
    fun _ => endsAtBreak_same (Nat.zero_le _)
  unfold scan
  refine endsAtBreak_ite (fun _ => hskip) fun _ => ?_
  refine endsAtBreak_ite (fun _ => ?_) fun _ => ?_
  · exact endsAtBreak_takeWhile (by decide) ds (fun run => skip run.length) fun _ => rfl
  refine endsAtBreak_ite (fun _ => hmark _) fun _ => ?_
  refine endsAtBreak_ite (fun _ => hmark _) fun _ => ?_
  refine endsAtBreak_ite (fun _ => hmark _) fun _ => ?_
  refine endsAtBreak_ite (fun _ => hmark _) fun _ => ?_
  refine endsAtBreak_ite (fun _ => hmark _) fun _ => ?_
  refine endsAtBreak_ite (fun _ => hmark _) fun _ => ?_
  refine endsAtBreak_ite (fun _ => ?_) fun _ => ?_
  · -- the dollar of an expression and its parenthesis stand together
    cases rest with
    | nil => exact endsAtBreak_fault p 0 _ _
    | cons d rest =>
      exact endsAtBreak_ite (fun _ => endsAtBreak_same (by simp [plain]))
        fun _ => endsAtBreak_fault p 0 _ _
  refine endsAtBreak_ite (fun _ => endsAtBreak_string p c ds) fun _ => ?_
  refine endsAtBreak_ite (fun _ => endsAtBreak_number p c ds) fun _ => ?_
  refine endsAtBreak_ite (fun _ => ?_) fun _ => endsAtBreak_fault p 0 _ _
  exact endsAtBreak_takeWhile (by decide) ds (fun run => plain (.ofWord (c :: run)) run.length)
    fun _ => rfl

end EndsAtBreak

end Lexeme

/-- **Scanning one text after the other**: with the line break the scanner is at the start again,
but for the position. -/
theorem scanFrom_append {p : Position} {cs : List Char} (h : (scanFrom p cs).problems = [])
    (ds : List Char) :
    scanFrom p (cs ++ '\n' :: ds) =
      let more := scanFrom ((p.advance cs).next '\n') ds
      ⟨(scanFrom p cs).tokens ++ more.tokens, more.stop, more.problems⟩ := by
  induction p, cs using scanFrom.induct with
  | case1 p =>
    rw [List.nil_append, scanFrom_nil, scanFrom_cons]
    rfl
  | case2 p c rest lexeme next ih =>
    have hadvance : p.advance (c :: rest) = next.advance (rest.drop lexeme.length) := by
      rw [← Position.advance_append, List.take_append_drop]
      rfl
    rw [List.cons_append, scanFrom_cons, scanFrom_cons, hadvance]
    rw [scanFrom_cons] at h
    dsimp only [lexeme, next] at h ih ⊢
    obtain ⟨hlexeme, hmore⟩ := List.append_eq_nil_iff.mp h
    obtain ⟨hsame, hroom⟩ := Lexeme.endsAtBreak_scan p c rest ds hlexeme
    rw [hsame, List.take_append_of_le_length hroom, List.drop_append_of_le_length hroom, ih hmore,
      hlexeme, List.append_assoc]
    rfl

end Token

/-! ## Documents -/

/-- What follows a text on a new line starts as a text does, only further down. -/
theorem Position.next_break (cs : List Char) :
    (start.advance cs).next '\n' = start.down (cs.count '\n' + 1) := by
  rw [next, if_pos rfl, line_advance, Nat.add_assoc]
  rfl

section Append

variable {text : String}

/-- **Scanning texts one after another**: the tokens of both, those of the second some lines
further down. -/
theorem Token.scan_append (h : (Token.scan text).problems = []) (more : String) :
    Token.scan (text ++ "\n" ++ more) =
      let after := (Token.scan more).down (text.toList.count '\n' + 1)
      ⟨(Token.scan text).tokens ++ after.tokens, after.stop, after.problems⟩ := by
  have hchars : (text ++ "\n" ++ more).toList = text.toList ++ '\n' :: more.toList := by
    simp
  rw [Token.scan, hchars, scanFrom_append h, Position.next_break, scanFrom_down]
  rfl

/-- **Parsing one text after the other.** -/
theorem Parsed.ofText_append (h : (Parsed.ofText text).diagnostics.hasErrors = false)
    (more : String) :
    Parsed.ofText (text ++ "\n" ++ more) =
      let n := text.toList.count '\n' + 1
      ⟨(Parsed.ofText text).forms ++ (Parsed.ofText more).forms.map (Form.down n),
        (Parsed.ofText more).diagnostics.map (Diagnostic.down n)⟩ := by
  obtain ⟨hspelling, hderives, hdepth⟩ := sound h
  rw [Parsed.ofText, Token.scan_append hspelling]
  dsimp only [Token.Scan.down]
  rw [Tree.tops_append hderives, Tree.tops_down, Form.map_prune_eq_self hdepth,
    (deepNotes_eq_nil_iff hderives).mpr hdepth, List.nil_append, ← List.map_append]
  rfl

end Append

/-- There are errors among both exactly if there are some in either. -/
theorem Diagnostics.hasErrors_append (ds es : Diagnostics) :
    Diagnostics.hasErrors (ds ++ es) = (ds.hasErrors || es.hasErrors) :=
  List.any_append

theorem Built.diagnostics_down {α : Type} {n : Nat} (b : Built α) :
    Built.diagnostics (b.mapNotes (BuildNote.down n)) = b.diagnostics.map (Diagnostic.down n) := by
  rw [diagnostics, diagnostics, Noted.mapNotes, List.filterMap_map, List.map_filterMap]
  congr 1
  funext note
  cases note <;> rfl

namespace Document

variable {registry : Registry}

/-- **Building one list of forms after the other**: nothing that a form builds depends on the
forms before it. -/
theorem ofForms_append (forms more : List Form) :
    ofForms registry (forms ++ more) = do
      let doc ← ofForms registry forms
      let doc' ← ofForms registry more
      return doc ++ doc' := by
  induction forms with
  | nil => simp [ofForms]
  | cons form rest ih =>
    rw [List.cons_append, ofForms, ofForms, ih]
    simp only [bind_assoc, pure_bind, List.cons_append]

/-- Forms are built one after another, and each on its own. -/
theorem diagnostics_ofForms_append (forms more : List Form) :
    (ofForms registry (forms ++ more)).diagnostics =
      (ofForms registry forms).diagnostics ++ (ofForms registry more).diagnostics := by
  rw [ofForms_append, Built.diagnostics, Noted.notes_bind, Noted.notes_bind, Noted.notes_pure,
    List.append_nil, List.filterMap_append]
  rfl

theorem value_ofForms_append (forms more : List Form) :
    (ofForms registry (forms ++ more)).value =
      (ofForms registry forms).value ++ (ofForms registry more).value := by
  rw [ofForms_append]
  rfl

/-- **Reading one text after the other**: what follows a text that is read, on a new line, is read
as if it stood alone. Its groups come after those of the first text; what is wrong with it is
reported as many lines further down as the first text has, in the same columns, and where building
it fails, after what building the first text has to report. -/
theorem read_append {text : String} {doc : Document} (hread : read text = .ok doc)
    (more : String) :
    read (text ++ "\n" ++ more) =
      let n := text.toList.count '\n' + 1
      match read more with
      | .ok doc' => .ok (doc ++ doc')
      | .error (.malformed ds) => .error (.malformed (ds.map (Diagnostic.down n)))
      | .error (.unbuildable ds) =>
        .error (.unbuildable ((ofForms .standard (Parsed.ofText text).forms).diagnostics ++
          ds.map (Diagnostic.down n))) := by
  obtain ⟨hparsed, hbuilt, rfl⟩ := readWith_eq_ok_iff.mp hread
  rw [read, read, readWith_value, readWith_value, Parsed.ofText_append hparsed]
  dsimp only
  rw [Diagnostics.hasErrors_down, diagnostics_ofForms_append, value_ofForms_append,
    ofForms_down placeless_standard, Built.diagnostics_down, Diagnostics.hasErrors_append, hbuilt,
    Bool.false_or, Diagnostics.hasErrors_down]
  -- both readings pass or fail the two tests together
  cases (Parsed.ofText more).diagnostics.hasErrors with
  | true => rfl
  | false =>
    cases (ofForms .standard (Parsed.ofText more).forms).diagnostics.hasErrors with
    | true => rfl
    | false => rfl

/-- A text with a warning and a comment at its end, and one that names no expression. -/
theorem read_append_commented :
    ∃ doc, read "(a :k 1 :k 2) ; end" = .ok doc ∧
      read ("(a :k 1 :k 2) ; end" ++ "\n" ++ "\n (b $(nosuch))") = .error (.unbuildable
        [.warning ⟨1, 9⟩ "duplicate key ':k' in 'a', keeping the later value",
          .error ⟨3, 5⟩ "unknown expression '$(nosuch)'"]) := by
  have hparsed : (Parsed.ofText "(a :k 1 :k 2) ; end").diagnostics.hasErrors = false := by
    decide +kernel
  have hbuilt : (ofForms .standard (Parsed.ofText "(a :k 1 :k 2) ; end").forms).diagnostics =
      [.warning ⟨1, 9⟩ "duplicate key ':k' in 'a', keeping the later value"] := by
    decide +kernel
  have hread : read "(a :k 1 :k 2) ; end" = .ok _ :=
    readWith_eq_ok_iff.mpr ⟨hparsed, by rw [hbuilt]; rfl, rfl⟩
  have hparsed' : (Parsed.ofText "\n (b $(nosuch))").diagnostics.hasErrors = false := by
    decide +kernel
  have hbuilt' : (ofForms .standard (Parsed.ofText "\n (b $(nosuch))").forms).diagnostics =
      [.error ⟨2, 5⟩ "unknown expression '$(nosuch)'"] := by
    decide +kernel
  have hmore : read "\n (b $(nosuch))" =
      .error (.unbuildable [.error ⟨2, 5⟩ "unknown expression '$(nosuch)'"]) := by
    rw [read, readWith_value, hparsed', hbuilt']
    rfl
  refine ⟨_, hread, ?_⟩
  rw [read_append hread, hmore, hbuilt]
  rfl

end Document

end DataLisp
