/-
The layout of a document, as tokens.

The writer lays a document out in pieces. Three things are shown about them here, for every
width of the indentation.

A document has a text exactly when each of its values can be written (`Value.Writable`):
the list of offences is empty if and only if every value in it is without offence. The
tokens of the layout do not depend on the indentation; they are those of `Value.tokens`,
which leaves the blanks out. And the layout is readable: the tokens are as the scanner makes
them, and each word or number is followed by a blank, a comma or a bracket, so the scanner
finds exactly these tokens in the text and nothing wrong with it (`scan_layout`).
-/
import DataLisp.Proofs.Documents
import DataLisp.Proofs.Spelling

set_option autoImplicit false

namespace DataLisp

/-! ## What can be written -/

/-- Whether a single value can be written: the id and the keys of a group have to be words or
runs of digits, and a float has to be finite. -/
def Value.Writable : Value → Prop
  | .group g => isWritableId g.id = true ∧ ∀ entry ∈ g.named, isWritableKey entry.1 = true
  | .float x => x.isFinite = true
  | .array _ | .null | .string _ | .integer _ | .bool _ => True

theorem Values.offences_eq_nil {vs : List Value} :
    Values.offences vs = [] ↔ ∀ v ∈ vs, v.offences = [] := by
  induction vs with
  | nil => simp [Values.offences]
  | cons v rest ih => rw [Values.offences, List.append_eq_nil_iff, ih, List.forall_mem_cons]

/-- Named entries offend by a key or by what is in a value. -/
theorem Named.offences_eq_nil {named : List (String × Value)} :
    Named.offences named = [] ↔
      (∀ entry ∈ named, isWritableKey entry.1 = true) ∧ ∀ entry ∈ named, entry.2.offences = [] := by
  induction named with
  | nil => simp [Named.offences]
  | cons entry rest ih =>
    obtain ⟨key, v⟩ := entry
    rw [Named.offences, List.append_eq_nil_iff, List.append_eq_nil_iff, ih, List.forall_mem_cons,
      List.forall_mem_cons]
    by_cases hkey : isWritableKey key = true
    · rw [if_pos hkey]
      tauto
    · rw [if_neg hkey]
      tauto

theorem Items.offences_eq_nil {items : List Item} :
    Items.offences items = [] ↔ ∀ d ∈ items, d.value.offences = [] := by
  induction items with
  | nil => simp [Items.offences]
  | cons d rest ih =>
    obtain ⟨key, v⟩ := d
    rw [Items.offences, List.append_eq_nil_iff, ih, List.forall_mem_cons]

/-- A group offends by its id or by an entry. -/
theorem Group.offences_eq_nil {g : Group} :
    g.offences = [] ↔ (Value.group g).Writable ∧ (∀ v ∈ g.anonymous, v.offences = []) ∧
      ∀ entry ∈ g.named, entry.2.offences = [] := by
  obtain ⟨id, named, anonymous⟩ := g
  rw [Group.offences, List.append_eq_nil_iff, List.append_eq_nil_iff, Values.offences_eq_nil,
    Named.offences_eq_nil, Value.Writable]
  by_cases hid : isWritableId id = true
  · rw [if_pos hid]
    tauto
  · rw [if_neg hid]
    tauto

/-- **There is no offence in a value exactly when all values in it can be written.** -/
theorem Value.offences_eq_nil_iff (v : Value) :
    v.offences = [] ↔ ∀ w ∈ v.values, w.Writable := by
  induction v using Value.induction with
  | null | string s | integer i | bool b => simp [Value.offences, Value.values, Value.Writable]
  | float x => simp [Value.offences, Value.values, Value.Writable]
  | group g ihanonymous ihnamed =>
    rw [Value.offences, Group.offences_eq_nil, forall_values_group, forall_values_inside]
    refine and_congr_right fun _ => and_congr ?_ ?_
    · exact forall_congr' fun v => forall_congr' fun hv => ihanonymous v hv
    · exact forall_congr' fun entry => forall_congr' fun hentry => ihnamed entry hentry
  | array items ih =>
    rw [Value.offences, Items.offences_eq_nil, forall_values_array]
    rw [show (Value.array items).Writable = True from rfl, true_and]
    exact forall_congr' fun d => forall_congr' fun hd => ih d hd

/-- A document has no offence exactly when everything in it can be written. -/
theorem Document.offences_eq_nil_iff {doc : Document} :
    doc.offences = [] ↔ ∀ w ∈ doc.values, w.Writable := by
  rw [forall_values_document, Document.offences, List.flatMap_eq_nil_iff]
  exact forall_congr' fun g => forall_congr' fun _ => (Value.group g).offences_eq_nil_iff

/-- A document has a text if all its values can be written, and then it is its layout. -/
theorem Document.write_eq_ok_iff {doc : Document} {indent : Nat} {text : String} :
    doc.write indent = .ok text ↔ (∀ w ∈ doc.values, w.Writable) ∧ doc.layout indent = text := by
  rw [← Document.offences_eq_nil_iff, Document.write]
  cases doc.offences with
  | nil => simp
  | cons first rest => simp

/-! ## The tokens of a layout -/

mutual

/-- The tokens that write a value. -/
def Value.tokens : Value → List Token
  | .null => [.null]
  | .string s => [.string s.toList]
  | .integer i => [.integer (Numeral.ofInt64 i)]
  | .float x => [.float (Notation.document.numeral x)]
  | .bool b => [.bool b]
  | .group g => g.tokens
  | .array items => .openBracket :: (Items.tokens items ++ [.closeBracket])

/-- The tokens that write a group, its anonymous entries before the named ones. -/
def Group.tokens : Group → List Token
  | ⟨id, named, anonymous⟩ =>
    .openParen :: .identifier id.toList ::
      (Values.tokens anonymous ++ (Named.tokens named ++ [.closeParen]))

/-- The tokens that write named entries. -/
def Named.tokens : List (String × Value) → List Token
  | [] => []
  | (key, v) :: rest => .colon :: .ofKey key :: (v.tokens ++ Named.tokens rest)

/-- The tokens that write anonymous entries. -/
def Values.tokens : List Value → List Token
  | [] => []
  | v :: rest => v.tokens ++ Values.tokens rest

/-- The tokens that write the items of an array: a comma after each but the last. -/
def Items.tokens : List Item → List Token
  | [] => []
  | ⟨_, v⟩ :: rest => v.tokens ++ ((if rest.isEmpty then [] else [.comma]) ++ Items.tokens rest)

end

/-- The tokens that write a document. -/
def Document.tokens (doc : Document) : List Token :=
  doc.flatMap Group.tokens

theorem Named.pieces_eq (indent depth : Nat) (named : List (String × Value)) :
    Named.pieces indent depth named = named.map fun entry =>
      .token .colon :: .token (.ofKey entry.1) :: .space :: entry.2.pieces indent depth := by
  induction named with
  | nil => rfl
  | cons entry rest ih => rw [Named.pieces, List.map_cons, ih]

theorem Values.pieces_eq (indent depth : Nat) (vs : List Value) :
    Values.pieces indent depth vs = vs.map (Value.pieces indent depth) := by
  induction vs with
  | nil => rfl
  | cons v rest ih => rw [Values.pieces, List.map_cons, ih]

theorem Items.pieces_eq (indent depth : Nat) (items : List Item) :
    Items.pieces indent depth items = items.map fun d => d.value.pieces indent depth := by
  induction items with
  | nil => rfl
  | cons d rest ih =>
    obtain ⟨key, v⟩ := d
    rw [Items.pieces, List.map_cons, ih]

/-- The lines of a group: each entry as its pieces. -/
def Group.lines (indent depth : Nat) (g : Group) : List (List (Piece Token)) :=
  g.anonymous.map (Value.pieces indent depth) ++ g.named.map fun entry =>
    .token .colon :: .token (.ofKey entry.1) :: .space :: entry.2.pieces indent depth

/-- What follows the lines of a group. -/
def Group.ending (indent depth : Nat) (g : Group) : List (Piece Token) :=
  (if (g.lines indent (depth + 1)).isEmpty then [] else [Piece.newline indent depth]) ++
    [.token .closeParen]

/-- A group is its opening with the id, its lines, and what follows them. -/
theorem Group.pieces_eq (indent depth : Nat) (g : Group) :
    g.pieces indent depth = .token .openParen :: .token (.identifier g.id.toList) ::
      ((g.lines indent (depth + 1)).flatMap (Piece.newline indent (depth + 1) :: ·) ++
        g.ending indent depth) := by
  obtain ⟨id, named, anonymous⟩ := g
  rw [Group.pieces, Values.pieces_eq, Named.pieces_eq]
  rfl

section Tokens

variable {indent : Nat}

/-- Each line begins with a break, which is no token. -/
theorem filterMap_lines (depth : Nat) (lines : List (List (Piece Token))) :
    (lines.flatMap (Piece.newline indent depth :: ·)).filterMap Piece.token? =
      lines.flatMap fun line => line.filterMap Piece.token? := by
  induction lines with
  | nil => rfl
  | cons line lines ih =>
    rw [List.flatMap_cons, List.filterMap_append, ih, List.flatMap_cons]
    rfl

/-- The tokens of the named entries, a line each, given those of their values. -/
theorem Named.filterMap_pieces {depth : Nat} {named : List (String × Value)}
    (h : ∀ entry ∈ named, (entry.2.pieces indent depth).filterMap Piece.token? = entry.2.tokens) :
    (named.map fun entry => .token .colon :: .token (.ofKey entry.1) :: .space ::
      entry.2.pieces indent depth).flatMap (fun line => line.filterMap Piece.token?) =
        Named.tokens named := by
  induction named with
  | nil => rfl
  | cons entry rest ih =>
    obtain ⟨key, v⟩ := entry
    rw [List.forall_mem_cons] at h
    rw [List.map_cons, List.flatMap_cons, ih h.2, Named.tokens, ← h.1]
    rfl

/-- The same for the anonymous entries. -/
theorem Values.filterMap_pieces {depth : Nat} {vs : List Value}
    (h : ∀ v ∈ vs, (v.pieces indent depth).filterMap Piece.token? = v.tokens) :
    (vs.map (Value.pieces indent depth)).flatMap (fun line => line.filterMap Piece.token?) =
      Values.tokens vs := by
  induction vs with
  | nil => rfl
  | cons v rest ih =>
    rw [List.forall_mem_cons] at h
    rw [List.map_cons, List.flatMap_cons, ih h.2, Values.tokens, h.1]

/-- The items of an array stand in one line, and the commas between them are tokens. -/
theorem Items.filterMap_pieces {depth : Nat} {items : List Item}
    (h : ∀ d ∈ items, (d.value.pieces indent depth).filterMap Piece.token? = d.value.tokens) :
    (Piece.separated [.token .comma, .space]
      (items.map fun d => d.value.pieces indent depth)).filterMap Piece.token? =
        Items.tokens items := by
  induction items with
  | nil => rfl
  | cons d rest ih =>
    obtain ⟨key, v⟩ := d
    rw [List.forall_mem_cons] at h
    cases rest with
    | nil =>
      rw [List.map_cons, List.map_nil, Piece.separated, h.1, Items.tokens, Items.tokens]
      simp
    | cons e rest =>
      rw [List.map_cons] at ih
      rw [List.map_cons, List.map_cons, Piece.separated, List.filterMap_append,
        List.filterMap_append, ih h.2, h.1, Items.tokens]
      · simp [Piece.token?, Piece.space]
      · simp

/-- **The tokens of a layout** are those of the value, whatever the indentation. -/
theorem Value.filterMap_pieces (v : Value) (depth : Nat) :
    (v.pieces indent depth).filterMap Piece.token? = v.tokens := by
  induction v using Value.induction generalizing depth with
  | null | string s | integer i | float x | bool b => rfl
  | group g ihanonymous ihnamed =>
    rw [Value.pieces, Group.pieces_eq, Value.tokens]
    obtain ⟨id, named, anonymous⟩ := g
    have hending : (Group.ending indent depth ⟨id, named, anonymous⟩).filterMap Piece.token? =
        [.closeParen] := by
      rw [Group.ending]
      split <;> rfl
    rw [List.filterMap_cons_some (f := Piece.token?) rfl,
      List.filterMap_cons_some (f := Piece.token?) rfl, List.filterMap_append, filterMap_lines,
      Group.lines, List.flatMap_append,
      Values.filterMap_pieces fun v hv => ihanonymous v hv (depth + 1),
      Named.filterMap_pieces fun entry hentry => ihnamed entry hentry (depth + 1), hending,
      Group.tokens, List.append_assoc]
  | array items ih =>
    rw [Value.pieces, Items.pieces_eq, Value.tokens,
      List.filterMap_cons_some (f := Piece.token?) rfl, List.filterMap_append,
      Items.filterMap_pieces fun d hd => ih d hd depth]
    rfl

/-- The line breaks after the groups of a document are no tokens either. -/
theorem Document.filterMap_pieces (doc : Document) :
    (doc.pieces indent).filterMap Piece.token? = doc.tokens := by
  have hgroup : ∀ g : Group, (g.pieces indent 0).filterMap Piece.token? = g.tokens :=
    fun g => (Value.group g).filterMap_pieces 0
  induction doc with
  | nil => rfl
  | cons g doc ih =>
    rw [Document.pieces] at ih ⊢
    rw [List.flatMap_cons, List.filterMap_append, List.filterMap_append, ih, hgroup,
      List.append_assoc]
    rfl

end Tokens

/-! ## What follows a word or a number -/

namespace Token

/-- A blank goes on with no word and no number. -/
theorem not_wordPart_of_isBlank {c : Char} (hc : Text.isBlank c = true) :
    isWordPart c = false ∧ c ≠ '.' := by
  refine ⟨?_, ?_⟩
  · by_contra hpart
    simp only [Bool.not_eq_false, isWordPart, Char.isAlphanum, Bool.or_eq_true,
      decide_eq_true_eq] at hpart
    have hvisible : 0x21 ≤ c.toNat ∧ c.toNat < 0x7F := by
      rcases hpart with (halpha | hdigit) | rfl
      · have hrange := Lexeme.toNat_isAlpha halpha
        omega
      · have hrange := Lexeme.toNat_isDigit hdigit
        omega
      · decide
    rw [Lexeme.isBlank_visible hvisible.1 hvisible.2] at hc
    cases hc
  · rintro rfl
    exact absurd hc (by decide)

/-- Pieces that are readable and do not go on with a word or a number before them. -/
structure Follows (pieces : List (Piece Token)) : Prop where
  readable : Readable pieces
  boundary : Boundary (Piece.spellAll spell pieces)

/-- Blanks may stand after a word or a number. -/
theorem follows_blank {c : Char} {cs : List Char} {pieces : List (Piece Token)}
    (hblank : ∀ d ∈ c :: cs, Text.isBlank d = true) (h : Readable pieces) :
    Follows (.blank (c :: cs) :: pieces) := by
  refine ⟨⟨hblank, h⟩, ?_⟩
  rintro _ ⟨⟩
  exact not_wordPart_of_isBlank (hblank c List.mem_cons_self)

/-- A token with an end of its own starts with a character that goes on with no word and no
number. -/
theorem spell_of_not_isOpenEnded {t : Token} (ht : t.isOpenEnded = false) :
    t.Proper ∧ ∃ c cs, t.spell = c :: cs ∧ isWordPart c = false ∧ c ≠ '.' := by
  cases t with
  | openParen | closeParen | openBracket | closeBracket | openExpression | comma | colon =>
    exact ⟨trivial, _, _, rfl, rfl, by decide⟩
  | string content => exact ⟨trivial, _, _, rfl, rfl, by decide⟩
  | identifier _ | integer _ | float _ | bool _ | null => cases ht

/-- So may a token with an end of its own. -/
theorem follows_token {t : Token} {pieces : List (Piece Token)} (ht : t.isOpenEnded = false)
    (h : Readable pieces) : Follows (.token t :: pieces) := by
  obtain ⟨hproper, d, ds, hspell, hd⟩ := spell_of_not_isOpenEnded ht
  refine ⟨⟨hproper, fun hopen => absurd hopen (by simp [ht]), h⟩, ?_⟩
  intro c hc
  rw [Piece.spellAll, List.flatMap_cons, Piece.spell, hspell] at hc
  cases hc
  exact hd

/-- Any token that the scanner can make may stand before what ends it. -/
theorem readable_token {t : Token} {pieces : List (Piece Token)} (ht : t.Proper)
    (h : Follows pieces) : Readable (.token t :: pieces) :=
  ⟨ht, fun _ => h.boundary, h.readable⟩

theorem follows_newline (indent depth : Nat) {pieces : List (Piece Token)} (h : Readable pieces) :
    Follows (Piece.newline indent depth :: pieces) := by
  apply follows_blank _ h
  rw [List.forall_mem_cons]
  refine ⟨rfl, ?_⟩
  intro d hd
  rw [List.eq_of_mem_replicate hd]
  rfl

theorem follows_space {pieces : List (Piece Token)} (h : Readable pieces) :
    Follows (Piece.space :: pieces) :=
  follows_blank (by simp; rfl) h

/-- The token of a key is as the scanner makes it: a run of digits is an integer without a
sign, and anything else that may be a key is a word. -/
theorem proper_ofKey {key : String} (h : isWritableKey key = true) : (ofKey key).Proper := by
  rw [isWritableKey, Bool.or_eq_true] at h
  rw [ofKey]
  split
  · rename_i hdigits
    simp only [isDigits, Bool.and_eq_true, Bool.not_eq_true', List.all_eq_true] at hdigits
    refine ⟨⟨hdigits.2, by simp, by simp, by simp⟩, ?_⟩
    simp [Numeral.isInteger, hdigits.1]
  · rename_i hdigits
    exact h.resolve_left hdigits

end Token

/-! ## The layout is readable -/

section Readable

variable {indent depth : Nat}

theorem readable_lines {lines : List (List (Piece Token))} {rest : List (Piece Token)}
    (hlines : ∀ line ∈ lines, ∀ rest, Token.Follows rest → Token.Readable (line ++ rest))
    (hrest : Token.Follows rest) :
    Token.Follows (lines.flatMap (Piece.newline indent depth :: ·) ++ rest) := by
  induction lines with
  | nil => exact hrest
  | cons line lines ih =>
    rw [List.forall_mem_cons] at hlines
    rw [List.flatMap_cons, List.append_assoc]
    exact Token.follows_newline indent depth (hlines.1 _ (ih hlines.2))

theorem readable_separated {lists : List (List (Piece Token))} {rest : List (Piece Token)}
    (hlists : ∀ list ∈ lists, ∀ rest, Token.Follows rest → Token.Readable (list ++ rest))
    (hrest : Token.Follows rest) :
    Token.Readable (Piece.separated [.token .comma, .space] lists ++ rest) := by
  induction lists with
  | nil => exact hrest.readable
  | cons first lists ih =>
    rw [List.forall_mem_cons] at hlists
    cases lists with
    | nil => exact hlists.1 rest hrest
    | cons second lists =>
      rw [Piece.separated, List.append_assoc, List.append_assoc]
      · refine hlists.1 _ (Token.follows_token rfl ?_)
        exact (Token.follows_space (ih hlists.2)).readable
      · simp

/-- **The layout of a value is readable**, if all values in it can be written. -/
theorem Value.readable_pieces (v : Value) (hv : ∀ w ∈ v.values, w.Writable) (depth : Nat) :
    ∀ rest, Token.Follows rest → Token.Readable (v.pieces indent depth ++ rest) := by
  induction v using Value.induction generalizing depth with
  | null => exact fun rest hrest => Token.readable_token trivial hrest
  | string s => exact fun rest hrest => (Token.follows_token rfl hrest.readable).readable
  | integer i =>
    intro rest hrest
    exact Token.readable_token ⟨Numeral.proper_ofInt _, Numeral.isInteger_ofInt _⟩ hrest
  | float x =>
    intro rest hrest
    have hx : x.isFinite = true := hv (.float x) List.mem_cons_self
    exact Token.readable_token
      ⟨Notation.proper_numeral _ hx, Notation.isFloat_numeral _ hx rfl⟩ hrest
  | bool b => exact fun rest hrest => Token.readable_token trivial hrest
  | group g ihanonymous ihnamed =>
    intro rest hrest
    obtain ⟨⟨hid, hkeys⟩, hinside⟩ := forall_values_group.mp hv
    obtain ⟨hanonymous, hnamed⟩ := forall_values_inside.mp hinside
    -- the closing parenthesis stands on a line of its own if the group has entries
    have hending : Token.Follows (g.ending indent depth ++ rest) := by
      have hclose := Token.follows_token (t := .closeParen) rfl hrest.readable
      rw [Group.ending]
      split
      · exact hclose
      · exact Token.follows_newline indent depth hclose.readable
    -- a line is an anonymous entry, or a key and its value
    have hlines : ∀ line ∈ g.lines indent (depth + 1), ∀ rest, Token.Follows rest →
        Token.Readable (line ++ rest) := by
      intro line hline rest hrest
      rcases List.mem_append.mp hline with hline | hline
      · obtain ⟨v, hv, rfl⟩ := List.mem_map.mp hline
        exact ihanonymous v hv (hanonymous v hv) (depth + 1) rest hrest
      · obtain ⟨entry, hentry, rfl⟩ := List.mem_map.mp hline
        have hvalue := ihnamed entry hentry (hnamed entry hentry) (depth + 1) rest hrest
        have hkey := Token.proper_ofKey (hkeys entry hentry)
        exact (Token.follows_token rfl
          (Token.readable_token hkey (Token.follows_space hvalue))).readable
    have hname : (Token.identifier g.id.toList).Proper := hid
    rw [Value.pieces, Group.pieces_eq, List.cons_append, List.cons_append, List.append_assoc]
    exact (Token.follows_token rfl
      (Token.readable_token hname (readable_lines hlines hending))).readable
  | array items ih =>
    intro rest hrest
    obtain ⟨-, hitems⟩ := forall_values_array.mp hv
    rw [Value.pieces, Items.pieces_eq, List.cons_append, List.append_assoc]
    -- what follows an item is a comma or the closing bracket, and both end it
    refine (Token.follows_token rfl (readable_separated ?_ ?_)).readable
    · intro list hlist
      obtain ⟨d, hd, rfl⟩ := List.mem_map.mp hlist
      exact ih d hd (hitems d hd) depth
    · exact Token.follows_token rfl hrest.readable

theorem Document.readable_pieces {doc : Document} (hdoc : ∀ w ∈ doc.values, w.Writable) :
    Token.Readable (doc.pieces indent) := by
  rw [forall_values_document] at hdoc
  induction doc with
  | nil => trivial
  | cons g doc ih =>
    rw [List.forall_mem_cons] at hdoc
    rw [Document.pieces, List.flatMap_cons, List.append_assoc]
    have hbreak : Token.Follows ([.blank ['\n']] ++ Document.pieces indent doc) :=
      Token.follows_blank (by simp; rfl) (ih hdoc.2)
    exact (Value.group g).readable_pieces hdoc.1 0 _ hbreak

end Readable

/-- **What the scanner finds in a layout**: the tokens of the document, and nothing wrong. -/
theorem Document.scan_layout {doc : Document} (hdoc : ∀ w ∈ doc.values, w.Writable)
    (indent : Nat) :
    (Token.scan (doc.layout indent)).tokens.map PlacedToken.token = doc.tokens ∧
      (Token.scan (doc.layout indent)).problems = [] := by
  have hreadable : Token.Readable (doc.pieces indent) := Document.readable_pieces hdoc
  have hscan := Token.scanFrom_spellAll hreadable .start
  rw [Document.filterMap_pieces] at hscan
  rw [Token.scan, Document.layout, String.toList_ofList]
  exact hscan

end DataLisp
