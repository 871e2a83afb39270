/-
Writing, and stopping at the first offence.

`Document.write` asks for all offences of a document first and lays the document out if there are
none. One can also go through the document once: put text out on the way, look at each id, each key
and each float when its turn comes, and stop at the first of them that cannot be written, with all
text so far lost. The machine here writes that way, with the number of open groups as the only thing
that a step needs to know of the steps before it.

What a step does is then its offences and its text (`Emits`): it stops with the first offence, or
adds a text that the level alone decides and leaves the level as it was. Steps in a row have their
offences and their texts in a row (`Emits.bind`), whatever the steps are, and that is all of the
argument. For a value both are what the definition of `Document.write` has (`value_emits`), so the
two ways of writing agree, and what is reported is the first thing that fails in the order in which
a document is written (`Document.checks`). The indentation is no part of that.
-/
import DataLisp.Proofs.Layout

set_option autoImplicit false

namespace DataLisp

namespace Emission

/-! ## The machine -/

/-- What has been written so far, and how many groups are open. -/
structure Sheet where
  text : List Char
  level : Nat

/-- A step of the writer. It ends with more text, or with an offence and no text at all. -/
abbrev Writer := StateT Sheet (Except Offence)

/-- Adds characters. -/
def put (cs : List Char) : Writer Unit :=
  modify fun sheet => { sheet with text := sheet.text ++ cs }

/-- Adds the blanks at the beginning of a line. -/
def startLine (indent : Nat) : Writer Unit := do
  put (List.replicate (indent * (← get).level) ' ')

/-- Stops with an offence if something is not as it has to be. -/
def require (holds : Bool) (offence : Offence) : Writer Unit :=
  unless holds do throw offence

/-- Adds a comma, but not before the first item of an array. -/
def comma (first : Bool) : Writer Unit :=
  unless first do put [',', ' ']

/-- Takes a step with one more group open. -/
def inside (step : Writer Unit) : Writer Unit := do
  modify fun sheet => { sheet with level := sheet.level + 1 }
  step
  modify fun sheet => { sheet with level := sheet.level - 1 }

mutual

/-- Writes a value. -/
def value (indent : Nat) : Value → Writer Unit
  | .null => put Token.null.spell
  | .string s => put (Token.string s.toList).spell
  | .integer i => put (Token.integer (Numeral.ofInt64 i)).spell
  | .float x => do
    require x.isFinite (.nonFinite x)
    put (Token.float (Notation.document.numeral x)).spell
  | .bool b => put (Token.bool b).spell
  | .group g => group indent g
  | .array list => do
    put ['[']
    items indent true list
    put [']']

/-- Writes a group: on one line if it has no entries, and else each entry on its own. -/
def group (indent : Nat) : Group → Writer Unit
  | ⟨id, named, anonymous⟩ => do
    require (isWritableId id) (.invalidId id)
    put ['(']
    put id.toList
    if named.isEmpty && anonymous.isEmpty then
      put [')']
    else
      put ['\n']
      inside do
        anonymousEntries indent anonymous
        namedEntries indent named
      startLine indent
      put [')']

/-- Writes named entries, the key before the value. -/
def namedEntries (indent : Nat) : List (String × Value) → Writer Unit
  | [] => pure ()
  | (key, v) :: rest => do
    startLine indent
    require (isWritableKey key) (.invalidKey key)
    put [':']
    put key.toList
    put [' ']
    value indent v
    put ['\n']
    namedEntries indent rest

/-- Writes anonymous entries. -/
def anonymousEntries (indent : Nat) : List Value → Writer Unit
  | [] => pure ()
  | v :: rest => do
    startLine indent
    value indent v
    put ['\n']
    anonymousEntries indent rest

/-- Writes the items of an array, with a comma before each but the first. -/
def items (indent : Nat) (first : Bool) : List Item → Writer Unit
  | [] => pure ()
  | ⟨_, v⟩ :: rest => do
    comma first
    value indent v
    items indent false rest

end

/-- Writes groups, and ends the line after each. -/
def groups (indent : Nat) : List Group → Writer Unit
  | [] => pure ()
  | g :: rest => do
    group indent g
    put ['\n']
    groups indent rest

/-! ## What a step does -/

/-- **A step emits** some text, unless there are offences and it stops with the first of them. The
text depends on the level at most, and the level is the same afterwards. -/
def Emits (step : Writer Unit) (offences : List Offence) (text : Nat → List Char) : Prop :=
  ∀ sheet, step sheet = match offences with
    | [] => .ok ((), ⟨sheet.text ++ text sheet.level, sheet.level⟩)
    | first :: _ => .error first

namespace Emits

variable {x y : Writer Unit} {os os' : List Offence} {s t : Nat → List Char}

theorem done : Emits (pure ()) [] fun _ => [] := by
  intro sheet
  show Except.ok ((), sheet) = Except.ok ((), ⟨sheet.text ++ [], sheet.level⟩)
  rw [List.append_nil]

theorem put (cs : List Char) : Emits (put cs) [] fun _ => cs :=
  fun _ => rfl

/-- The indentation of a line depends on the level alone. -/
theorem startLine (indent : Nat) :
    Emits (startLine indent) [] fun level => List.replicate (indent * level) ' ' :=
  fun _ => rfl

/-- A check writes nothing, and fails with its offence. -/
theorem require (holds : Bool) (offence : Offence) :
    Emits (require holds offence) (if holds then [] else [offence]) fun _ => [] := by
  cases holds with
  | true => exact done
  | false => exact fun _ => rfl

theorem comma (first : Bool) :
    Emits (comma first) [] fun _ => if first then [] else [',', ' '] := by
  cases first with
  | true => exact done
  | false => exact fun _ => rfl

/-- **Steps in a row** have their offences and their texts in a row. Where the first one stops, the
other is not taken. -/
theorem bind (hx : Emits x os s) (hy : Emits y os' t) :
    Emits (do x; y) (os ++ os') fun level => s level ++ t level := by
  intro sheet
  show (x sheet >>= fun result => y result.2) = _
  rw [hx sheet]
  cases os with
  | nil =>
    show y ⟨sheet.text ++ s sheet.level, sheet.level⟩ = _
    rw [hy, List.nil_append]
    cases os' with
    | nil => rw [List.append_assoc]
    | cons first rest => rfl
  | cons first rest => rfl

/-- What is written inside is written one level further in. -/
theorem inside (hx : Emits x os s) : Emits (inside x) os fun level => s (level + 1) := by
  intro sheet
  show (x ⟨sheet.text, sheet.level + 1⟩ >>= fun result =>
    Except.ok ((), Sheet.mk result.2.text (result.2.level - 1))) = _
  rw [hx]
  cases os with
  | nil => rfl
  | cons first rest => rfl

/-- Offences and text may be given in another form. -/
theorem congr (hx : Emits x os s) (hos : os = os') (hs : ∀ level, s level = t level) :
    Emits x os' t := by
  have htext : s = t := funext hs
  rw [← hos, ← htext]
  exact hx

end Emits

/-! ## Texts of pieces -/

/-- The text of some pieces. -/
def textOf (pieces : List (Piece Token)) : List Char :=
  Piece.spellAll Token.spell pieces

theorem textOf_append (pieces more : List (Piece Token)) :
    textOf (pieces ++ more) = textOf pieces ++ textOf more :=
  List.flatMap_append

/-- A key is written as it stands, be it a word or a number. -/
theorem spell_ofKey (key : String) : (Token.ofKey key).spell = key.toList := by
  rw [Token.ofKey]
  split
  · simp [Token.spell, Numeral.chars, Sign.chars, Numeral.fractionChars, Numeral.exponentChars]
  · rfl

/-- The text of an entry on a line of its own. -/
def lineText (indent level : Nat) (line : List (Piece Token)) : List Char :=
  List.replicate (indent * level) ' ' ++ (textOf line ++ ['\n'])

/-- A line break behind each line and one before all is one before each line and one behind all. -/
theorem flatMap_lineText (indent level : Nat) (lines : List (List (Piece Token))) :
    '\n' :: lines.flatMap (lineText indent level) =
      textOf (lines.flatMap (Piece.newline indent level :: ·)) ++ ['\n'] := by
  induction lines with
  | nil => rfl
  | cons line lines ih =>
    have hline : textOf (Piece.newline indent level :: line) =
        '\n' :: (List.replicate (indent * level) ' ' ++ textOf line) := rfl
    rw [List.flatMap_cons, List.flatMap_cons, textOf_append, List.append_assoc, ← ih, hline,
      lineText]
    simp only [List.cons_append, List.append_assoc, List.nil_append]

/-- The text of a group that has entries. -/
theorem textOf_group (indent level : Nat) {g : Group}
    (h : (g.lines indent (level + 1)).isEmpty = false) :
    textOf (g.pieces indent level) = '(' :: (g.id.toList ++ ('\n' ::
      ((g.lines indent (level + 1)).flatMap (lineText indent (level + 1)) ++
        (List.replicate (indent * level) ' ' ++ [')'])))) := by
  have hbreaks := flatMap_lineText indent (level + 1) (g.lines indent (level + 1))
  have hending : textOf (g.ending indent level) =
      ['\n'] ++ (List.replicate (indent * level) ' ' ++ [')']) := by
    rw [Group.ending, h]
    rfl
  rw [Group.pieces_eq]
  show '(' :: (g.id.toList ++ textOf (_ ++ _)) =
    '(' :: (g.id.toList ++ (('\n' :: (g.lines indent (level + 1)).flatMap _) ++ _))
  rw [textOf_append, hending, hbreaks, List.append_assoc]

/-! ## What the machine does on a document -/

section Values

variable {indent : Nat}

theorem anonymousEntries_emits {vs : List Value}
    (h : ∀ v ∈ vs, Emits (value indent v) v.offences fun level => textOf (v.pieces indent level)) :
    Emits (anonymousEntries indent vs) (Values.offences vs) fun level =>
      (vs.map (Value.pieces indent level)).flatMap (lineText indent level) := by
  induction vs with
  | nil => exact Emits.done
  | cons v rest ih =>
    rw [List.forall_mem_cons] at h
    have hsteps := (Emits.startLine indent).bind (h.1.bind ((Emits.put ['\n']).bind (ih h.2)))
    refine hsteps.congr rfl fun level => ?_
    rw [List.map_cons, List.flatMap_cons, lineText, List.append_assoc, List.append_assoc]

/-- Named entries in a row: each is looked at and written after the one before it. -/
theorem namedEntries_emits {named : List (String × Value)}
    (h : ∀ entry ∈ named,
      Emits (value indent entry.2) entry.2.offences fun level =>
        textOf (entry.2.pieces indent level)) :
    Emits (namedEntries indent named) (Named.offences named) fun level =>
      (named.map fun entry => .token .colon :: .token (.ofKey entry.1) :: .space ::
        entry.2.pieces indent level).flatMap (lineText indent level) := by
  induction named with
  | nil => exact Emits.done
  | cons entry rest ih =>
    obtain ⟨key, v⟩ := entry
    rw [List.forall_mem_cons] at h
    have hsteps := (Emits.startLine indent).bind ((Emits.require (isWritableKey key)
      (.invalidKey key)).bind ((Emits.put [':']).bind ((Emits.put key.toList).bind
        ((Emits.put [' ']).bind (h.1.bind ((Emits.put ['\n']).bind (ih h.2)))))))
    refine hsteps.congr rfl fun level => ?_
    have hline : textOf (.token .colon :: .token (.ofKey key) :: .space :: v.pieces indent level) =
        [':'] ++ (key.toList ++ ([' '] ++ textOf (v.pieces indent level))) := by
      rw [← spell_ofKey]
      rfl
    rw [List.map_cons, List.flatMap_cons, lineText, hline]
    simp only [List.append_assoc, List.nil_append]

/-- Behind the first item of an array each has a comma before it. -/
theorem items_emits {list : List Item}
    (h : ∀ d ∈ list, Emits (value indent d.value) d.value.offences fun level =>
      textOf (d.value.pieces indent level)) (first : Bool) :
    Emits (items indent first list) (Items.offences list) fun level =>
      (if first || list.isEmpty then [] else [',', ' ']) ++
        textOf (Piece.separated [.token .comma, .space]
          (list.map fun d => d.value.pieces indent level)) := by
  induction list generalizing first with
  | nil =>
    refine Emits.done.congr rfl fun level => ?_
    rw [List.isEmpty_nil, Bool.or_true]
    rfl
  | cons d rest ih =>
    obtain ⟨key, v⟩ := d
    rw [List.forall_mem_cons] at h
    refine ((Emits.comma first).bind (h.1.bind (ih h.2 false))).congr rfl fun level => ?_
    rw [List.isEmpty_cons, Bool.or_false]
    congr 1
    cases rest with
    | nil => exact List.append_nil _
    | cons e rest =>
      -- two items have a comma between them, whatever comes behind
      have hseparated : ∀ (a b : List (Piece Token)) (lists : List (List (Piece Token))),
          textOf (Piece.separated [.token .comma, .space] (a :: b :: lists)) =
            textOf a ++ ([',', ' '] ++
              textOf (Piece.separated [.token .comma, .space] (b :: lists))) := by
        intro a b lists
        rw [Piece.separated, textOf_append, textOf_append, List.append_assoc]
        · rfl
        · simp
      exact (hseparated _ _ _).symm

section Group

variable {g : Group}
  (hanonymous : ∀ v ∈ g.anonymous, Emits (value indent v) v.offences fun level =>
    textOf (v.pieces indent level))
  (hnamed : ∀ entry ∈ g.named, Emits (value indent entry.2) entry.2.offences fun level =>
    textOf (entry.2.pieces indent level))
include hanonymous hnamed

/-- The lines of a group, written with one more group open. -/
theorem lines_emits :
    Emits (inside do anonymousEntries indent g.anonymous; namedEntries indent g.named)
      (Values.offences g.anonymous ++ Named.offences g.named) fun level =>
        (g.lines indent (level + 1)).flatMap (lineText indent (level + 1)) :=
  ((anonymousEntries_emits hanonymous).bind (namedEntries_emits hnamed)).inside.congr rfl
    fun _ => List.flatMap_append.symm

/-- A group without entries stays on one line. -/
theorem group_emits :
    Emits (group indent g) g.offences fun level => textOf (g.pieces indent level) := by
  have hentries := lines_emits hanonymous hnamed
  obtain ⟨id, named, anonymous⟩ := g
  -- whatever comes behind it, a group starts with its id
  have hopen := fun {step : Writer Unit} {os : List Offence} {t : Nat → List Char}
      (h : Emits step os t) => (Emits.require (isWritableId id) (.invalidId id)).bind
        ((Emits.put ['(']).bind ((Emits.put id.toList).bind h))
  rw [group]
  by_cases hempty : (named.isEmpty && anonymous.isEmpty) = true
  · rw [if_pos hempty]
    rw [Bool.and_eq_true, List.isEmpty_iff, List.isEmpty_iff] at hempty
    obtain ⟨rfl, rfl⟩ := hempty
    exact (hopen (Emits.put [')'])).congr rfl fun level => rfl
  · rw [if_neg hempty]
    have hrest := (Emits.put ['\n']).bind (hentries.bind
      ((Emits.startLine indent).bind (Emits.put [')'])))
    refine (hopen hrest).congr ?_ fun level => ?_
    · rw [Group.offences, List.append_nil, List.append_nil]
      rfl
    · refine (textOf_group indent level (g := ⟨id, named, anonymous⟩) ?_).symm
      rw [Bool.eq_false_iff, ne_eq, List.isEmpty_iff, Group.lines, List.append_eq_nil_iff,
        List.map_eq_nil_iff, List.map_eq_nil_iff]
      simpa [and_comm] using hempty

end Group

/-- **Values**: the machine stops with the first offence in a value, or writes its text. -/
theorem value_emits (v : Value) :
    Emits (value indent v) v.offences fun level => textOf (v.pieces indent level) := by
  induction v using Value.induction with
  | null => exact Emits.put _
  | string s => exact (Emits.put _).congr rfl fun _ => (List.append_nil _).symm
  | integer i => exact (Emits.put _).congr rfl fun _ => (List.append_nil _).symm
  | float x =>
    refine ((Emits.require x.isFinite (.nonFinite x)).bind (Emits.put _)).congr ?_ fun _ => ?_
    · rw [Value.offences, List.append_nil]
    · exact (List.append_nil _).symm
  | bool b => exact (Emits.put _).congr rfl fun _ => (List.append_nil _).symm
  | group g ihanonymous ihnamed => exact group_emits ihanonymous ihnamed
  | array list ih =>
    refine ((Emits.put ['[']).bind ((items_emits ih true).bind (Emits.put [']']))).congr ?_
      fun level => ?_
    · rw [Value.offences, List.append_nil]
      rfl
    · rw [Value.pieces, Items.pieces_eq]
      show '[' :: (_ ++ [']']) = '[' :: textOf (_ ++ _)
      rw [textOf_append]
      rfl

theorem groups_emits (doc : Document) :
    Emits (groups indent doc) doc.offences fun level =>
      textOf (doc.flatMap fun g => g.pieces indent level ++ [.blank ['\n']]) := by
  induction doc with
  | nil => exact Emits.done
  | cons g rest ih =>
    have hgroup : Emits (group indent g) g.offences fun level => textOf (g.pieces indent level) :=
      value_emits (.group g)
    refine (hgroup.bind ((Emits.put ['\n']).bind ih)).congr rfl fun level => ?_
    rw [List.flatMap_cons, textOf_append, textOf_append, List.append_assoc]
    rfl

end Values

end Emission

/-! ## What is looked at -/

/-- Whether a text is a word that is no keyword: letters, digits and underlines of ASCII, and not a
digit first. -/
def IsName (s : String) : Prop :=
  (∃ c rest, s.toList = c :: rest ∧ (c.isAlpha = true ∨ c = '_') ∧
    ∀ d ∈ rest, d.isAlphanum = true ∨ d = '_') ∧ s ≠ "true" ∧ s ≠ "false" ∧ s ≠ "null"

/-- Whether a text is such a word, or a run of digits that is not empty. -/
def IsKeyName (s : String) : Prop :=
  IsName s ∨ s ≠ "" ∧ ∀ c ∈ s.toList, c.isDigit = true

theorem isWritableId_iff {id : String} : isWritableId id = true ↔ IsName id := by
  have hword : ∀ word : List Char, Token.ofWord word = .identifier word ↔
      word ≠ "true".toList ∧ word ≠ "false".toList ∧ word ≠ "null".toList := by
    intro word
    simp only [Token.ofWord]
    split_ifs <;> simp_all
  have hne : ∀ keyword : String, id.toList ≠ keyword.toList ↔ id ≠ keyword :=
    fun keyword => not_congr String.toList_inj
  rw [isWritableId, IsName, ← hne, ← hne, ← hne, ← hword]
  generalize id.toList = word
  cases word with
  | nil => simp [Token.isIdentifier]
  | cons c rest =>
    simp [Token.isIdentifier, Token.isWordStart, Token.isWordPart, and_assoc]

theorem isWritableKey_iff {key : String} : isWritableKey key = true ↔ IsKeyName key := by
  have hempty : key.toList.isEmpty = false ↔ key ≠ "" := by
    rw [Bool.eq_false_iff, ne_eq, List.isEmpty_iff, String.toList_eq_nil_iff]
  rw [isWritableKey, Bool.or_eq_true, or_comm]
  refine or_congr isWritableId_iff ?_
  rw [isDigits, Bool.and_eq_true, Bool.not_eq_true', hempty, List.all_eq_true]

/-- Something that the writer looks at. -/
inductive Check where
  | id (name : String)
  | key (name : String)
  | float (x : Binary64)

namespace Check

/-- Whether it cannot be written, for the given reason. -/
def Fails (e : Offence) : Check → Prop
  | id name => ¬IsName name ∧ e = .invalidId name
  | key name => ¬IsKeyName name ∧ e = .invalidKey name
  | float x => x.isFinite = false ∧ e = .nonFinite x

/-- The reason why it cannot be written, if there is one. -/
def offence? : Check → Option Offence
  | id name => if isWritableId name then none else some (.invalidId name)
  | key name => if isWritableKey name then none else some (.invalidKey name)
  | float x => if x.isFinite then none else some (.nonFinite x)

theorem offence?_eq_some_iff {c : Check} {e : Offence} : c.offence? = some e ↔ c.Fails e := by
  have htest : ∀ {holds : Bool} {P : Prop} {offence : Offence}, (holds = true ↔ P) →
      ((if holds then none else some offence) = some e ↔ ¬P ∧ e = offence) := by
    intro holds P offence hP
    rw [← hP]
    cases holds with
    | true => simp
    | false => simp [eq_comm]
  cases c with
  | id name => exact htest isWritableId_iff
  | key name => exact htest isWritableKey_iff
  | float x => exact (htest Iff.rfl).trans (and_congr_left' (Bool.not_eq_true _).to_iff)

end Check

mutual

/-- What there is to look at in a value, in the order of writing. -/
def Value.checks : Value → List Check
  | .float x => [.float x]
  | .group g => g.checks
  | .array items => Items.checks items
  | .null | .string _ | .integer _ | .bool _ => []

/-- The same in a group: its id, then its anonymous entries, then its named ones. -/
def Group.checks : Group → List Check
  | ⟨id, named, anonymous⟩ => .id id :: (Values.checks anonymous ++ Named.checks named)

/-- The same in named entries, a key before its value. -/
def Named.checks : List (String × Value) → List Check
  | [] => []
  | (key, v) :: rest => .key key :: (v.checks ++ Named.checks rest)

/-- The same in anonymous entries. -/
def Values.checks : List Value → List Check
  | [] => []
  | v :: rest => v.checks ++ Values.checks rest

/-- The same in the items of an array, whose keys are not written. -/
def Items.checks : List Item → List Check
  | [] => []
  | ⟨_, v⟩ :: rest => v.checks ++ Items.checks rest

end

/-- What there is to look at in a document, group by group. -/
def Document.checks (doc : Document) : List Check :=
  doc.flatMap Group.checks

mutual

/-- The offences in a value are those of its checks, in their order. -/
theorem Value.offences_eq_checks : ∀ v : Value, v.offences = v.checks.filterMap Check.offence?
  | .float x => by
    rw [Value.offences, Value.checks, List.filterMap_cons, Check.offence?]
    split <;> rfl
  | .group g => Group.offences_eq_checks g
  | .array items => Items.offences_eq_checks items
  | .null | .string _ | .integer _ | .bool _ => rfl

theorem Group.offences_eq_checks : ∀ g : Group, g.offences = g.checks.filterMap Check.offence?
  | ⟨id, named, anonymous⟩ => by
    rw [Group.offences, Group.checks, List.filterMap_cons, List.filterMap_append,
      ← Values.offences_eq_checks, ← Named.offences_eq_checks, Check.offence?]
    split <;> rfl

theorem Named.offences_eq_checks :
    ∀ named, Named.offences named = (Named.checks named).filterMap Check.offence?
  | [] => rfl
  | (key, v) :: rest => by
    rw [Named.offences, Named.checks, List.filterMap_cons, List.filterMap_append,
      ← Value.offences_eq_checks, ← Named.offences_eq_checks, Check.offence?]
    split <;> rfl

theorem Values.offences_eq_checks :
    ∀ vs, Values.offences vs = (Values.checks vs).filterMap Check.offence?
  | [] => rfl
  | v :: rest => by
    rw [Values.offences, Values.checks, List.filterMap_append, ← Value.offences_eq_checks,
      ← Values.offences_eq_checks]

theorem Items.offences_eq_checks :
    ∀ items, Items.offences items = (Items.checks items).filterMap Check.offence?
  | [] => rfl
  | ⟨_, v⟩ :: rest => by
    rw [Items.offences, Items.checks, List.filterMap_append, ← Value.offences_eq_checks,
      ← Items.offences_eq_checks]

end

namespace Document

/-- The text of a document as the machine writes it, or what it stops with. -/
def emit (indent : Nat) (doc : Document) : Except Offence String := do
  let ((), sheet) ← Emission.groups indent doc ⟨[], 0⟩
  return String.ofList sheet.text

/-- **Looking for offences while writing is the same** as looking for them before. -/
theorem emit_eq_write (indent : Nat) (doc : Document) : doc.emit indent = doc.write indent := by
  rw [emit, write, Emission.groups_emits doc ⟨[], 0⟩]
  cases doc.offences with
  | nil => rfl
  | cons first rest => rfl

/-- The error is the first offence, whatever the indentation. -/
theorem write_eq_error_iff {doc : Document} {indent : Nat} {e : Offence} :
    doc.write indent = .error e ↔ ∃ rest, doc.offences = e :: rest := by
  rw [write]
  cases doc.offences with
  | nil => simp
  | cons first rest => simp

theorem offences_eq_checks (doc : Document) :
    doc.offences = doc.checks.filterMap Check.offence? := by
  rw [offences, checks, List.filterMap_flatMap]
  exact List.flatMap_congr fun g _ => Group.offences_eq_checks g

/-- A document has no text if something in it has none. -/
theorem exists_error_iff {doc : Document} {indent : Nat} :
    (∃ e, doc.write indent = .error e) ↔ ∃ w ∈ doc.values, ¬w.Writable := by
  calc (∃ e, doc.write indent = .error e)
      ↔ doc.offences ≠ [] := by simp only [write_eq_error_iff, List.ne_nil_iff_exists_cons]
    _ ↔ ∃ w ∈ doc.values, ¬w.Writable := by
      simp only [ne_eq, offences_eq_nil_iff, not_forall, exists_prop]

/-- What in a document has no text, case by case. -/
theorem exists_not_writable_iff {doc : Document} :
    (∃ w ∈ doc.values, ¬w.Writable) ↔
      (∃ g, Value.group g ∈ doc.values ∧ ¬IsName g.id) ∨
      (∃ g, Value.group g ∈ doc.values ∧ ∃ entry ∈ g.named, ¬IsKeyName entry.1) ∨
      ∃ x, Value.float x ∈ doc.values ∧ x.isFinite = false := by
  have hgroup : ∀ g : Group, (Value.group g).Writable ↔
      IsName g.id ∧ ∀ entry ∈ g.named, IsKeyName entry.1 := by
    intro g
    simp only [Value.Writable, isWritableId_iff, isWritableKey_iff]
  constructor
  · rintro ⟨w, hw, hnot⟩
    cases w with
    | group g =>
      simp only [hgroup, not_and_or, not_forall, exists_prop] at hnot
      exact hnot.elim (fun hid => .inl ⟨g, hw, hid⟩) fun hkey => .inr (.inl ⟨g, hw, hkey⟩)
    | float x => exact .inr (.inr ⟨x, hw, Bool.eq_false_iff.mpr hnot⟩)
    | array _ | null | string _ | integer _ | bool _ => exact absurd trivial hnot
  · rintro (⟨g, hg, hid⟩ | ⟨g, hg, entry, hentry, hkey⟩ | ⟨x, hx, hinfinite⟩)
    · exact ⟨_, hg, fun h => hid ((hgroup g).mp h).1⟩
    · exact ⟨_, hg, fun h => hkey (((hgroup g).mp h).2 entry hentry)⟩
    · exact ⟨_, hx, Bool.eq_false_iff.mp hinfinite⟩

/-- The error is what is wrong with the first check that fails. -/
theorem write_eq_error_iff_checks {doc : Document} {indent : Nat} {e : Offence} :
    doc.write indent = .error e ↔ ∃ before check after,
      doc.checks = before ++ check :: after ∧ (∀ c ∈ before, ∀ e, ¬c.Fails e) ∧ check.Fails e := by
  have hnone : ∀ c : Check, c.offence? = none ↔ ∀ e, ¬c.Fails e := by
    intro c
    simp only [Option.eq_none_iff_forall_ne_some, ne_eq, Check.offence?_eq_some_iff]
  simp only [write_eq_error_iff, offences_eq_checks, List.filterMap_eq_cons_iff, hnone,
    Check.offence?_eq_some_iff]
  constructor
  · rintro ⟨rest, before, check, after, hchecks, hbefore, hfails, -⟩
    exact ⟨before, check, after, hchecks, hbefore, hfails⟩
  · rintro ⟨before, check, after, hchecks, hbefore, hfails⟩
    exact ⟨_, before, check, after, hchecks, hbefore, hfails, rfl⟩

/-- **The writer fails exactly on what has no text, and reports the first of it.** Writing while
looking for offences and looking for them before is the same. There is an error if and only if at
any depth there is a group whose id is no name, a named entry whose key is neither a name nor a run
of digits, or a float that is not finite. The error is the one of the first of these in the order of
writing: a group has its id before its entries and the anonymous ones before the named ones, which
have the key before the value. The indentation has no part in whether there is an error, or in
which. Where there is none, the texts for two indentations have the same tokens, and nothing is
wrong with their spelling. -/
theorem write_first_offence (doc : Document) (indent : Nat) :
    doc.emit indent = doc.write indent ∧
    ((∃ e, doc.write indent = .error e) ↔
      (∃ g, Value.group g ∈ doc.values ∧ ¬IsName g.id) ∨
      (∃ g, Value.group g ∈ doc.values ∧ ∃ entry ∈ g.named, ¬IsKeyName entry.1) ∨
      ∃ x, Value.float x ∈ doc.values ∧ x.isFinite = false) ∧
    (∀ e, doc.write indent = .error e ↔ ∃ before check after,
      doc.checks = before ++ check :: after ∧ (∀ c ∈ before, ∀ e, ¬c.Fails e) ∧ check.Fails e) ∧
    ∀ indent', (∀ e, doc.write indent = .error e ↔ doc.write indent' = .error e) ∧
      ∀ text text', doc.write indent = .ok text → doc.write indent' = .ok text' →
        (Token.scan text).tokens.map PlacedToken.token =
            (Token.scan text').tokens.map PlacedToken.token ∧
          (Token.scan text).problems = [] ∧ (Token.scan text').problems = [] := by
  refine ⟨doc.emit_eq_write indent, exists_error_iff.trans exists_not_writable_iff,
    fun e => write_eq_error_iff_checks, fun indent' => ⟨fun e => ?_, ?_⟩⟩
  · exact write_eq_error_iff.trans write_eq_error_iff.symm
  · intro text text' h h'
    obtain ⟨hwritable, rfl⟩ := write_eq_ok_iff.mp h
    obtain ⟨-, rfl⟩ := write_eq_ok_iff.mp h'
    obtain ⟨htokens, hproblems⟩ := scan_layout hwritable indent
    obtain ⟨htokens', hproblems'⟩ := scan_layout hwritable indent'
    exact ⟨htokens.trans htokens'.symm, hproblems, hproblems'⟩

end Document

end DataLisp
