/-
JSON tokens are scanned as they are spelled.

The numbers of JSON are stricter than numerals: no plus in front, no needless zero, and digits
wherever there is a point or an exponent. The numerals that integers and doubles are written
as keep to that. In a string every character is spelled by an escape or by itself, and what is
spelled is scanned as the part that it was spelled for; so a whole text comes back, and its
parts decode to its characters.

As in the notation of documents, a number or a word ends only where something follows that
cannot go on with it. A layout whose tokens are all followed in that way is readable, and the
scanner finds exactly its tokens (`scan_spellAll`).
-/
import DataLisp.Json.Decode
import DataLisp.Json.Text
import DataLisp.Proofs.Numerals

set_option autoImplicit false

namespace DataLisp

/-! ## Numbers -/

/-- Only zero is written with a zero in front. -/
theorem head_toDigits {n : Nat} (h : n ≠ 0) : (Nat.toDigits 10 n).head? ≠ some '0' := by
  induction n using Nat.strongRecOn with
  | ind n ih =>
    rw [Nat.toDigits_eq_if (by decide)]
    split
    · rename_i hlt
      have hdigit : ∀ m < 10, m ≠ 0 → Nat.digitChar m ≠ '0' := by decide
      simpa using hdigit n hlt h
    · rename_i hle
      -- the first digit is that of the tenth part
      have htenth := ih (n / 10) (by omega) (by omega)
      cases hdigits : Nat.toDigits 10 (n / 10) with
      | nil => exact absurd hdigits Nat.toDigits_ne_nil
      | cons c cs =>
        rw [hdigits] at htenth
        exact htenth

namespace Notation

variable (f : Notation)

/-- The shortest digits of a double start with no zero. -/
theorem head_shortestDigits {x : Binary64} (hx : x.isFinite = true) (hzero : x.isZero = false) :
    (f.shortestDigits x).head? ≠ some '0' := by
  have hne := shortestDigits_ne_nil f hx hzero
  obtain ⟨n, hn⟩ := dropTrailingZeros_append (Nat.toDigits 10 (x.shortest f.tie).digits)
  have hdigits : (x.shortest f.tie).digits ≠ 0 := by
    intro hd
    refine hne ?_
    rw [shortestDigits, hd]
    rfl
  have hhead := head_toDigits hdigits
  rw [hn] at hhead
  cases hshort : f.shortestDigits x with
  | nil => exact absurd hshort hne
  | cons c cs =>
    rw [shortestDigits] at hshort
    rw [hshort] at hhead
    exact hhead

end Notation

namespace Json

theorem isNumber_iff {n : Numeral} :
    isNumber n = true ↔ n.sign ≠ some .plus ∧ n.whole ≠ [] ∧
      (n.whole.length = 1 ∨ n.whole.head? ≠ some '0') ∧
      (∀ digits, n.fraction = some digits → digits ≠ []) ∧
      ∀ e, n.exponent = some e → e.digits ≠ [] := by
  obtain ⟨sign, whole, fraction, exponent⟩ := n
  cases fraction <;> cases exponent <;> simp [isNumber, and_assoc]

theorem isNumber_ofInt (z : Int) : isNumber (Numeral.ofInt z) = true := by
  refine isNumber_iff.mpr ⟨?_, Nat.toDigits_ne_nil, ?_, by simp [Numeral.ofInt],
    by simp [Numeral.ofInt]⟩
  · rw [Numeral.ofInt]
    split <;> simp
  · by_cases hz : z.natAbs = 0
    · left
      rw [Numeral.ofInt, hz]
      rfl
    · exact .inr (head_toDigits hz)

/-- The whole part of a positional layout has no needless zero in front. -/
theorem positional_head (f : Notation) {digits : List Char} (hdigits : digits ≠ [])
    (hhead : digits.head? ≠ some '0') (k : Int) :
    (f.positional digits k).1.length = 1 ∨ (f.positional digits k).1.head? ≠ some '0' := by
  obtain ⟨c, cs, rfl⟩ := List.exists_cons_of_ne_nil hdigits
  rcases Notation.positional_cases f hdigits k with ⟨-, hplace⟩ | ⟨hk, -, hplace⟩ | ⟨-, hplace⟩
  · rw [hplace]
    exact .inl rfl
  · rw [hplace]
    right
    obtain ⟨m, hm⟩ : ∃ m, k.toNat = m + 1 := ⟨k.toNat - 1, by omega⟩
    rw [hm]
    exact hhead
  · rw [hplace]
    exact .inr hhead

theorem positional_fraction (f : Notation) {digits : List Char} (hdigits : digits ≠ []) (k : Int) :
    ∀ ds, (f.positional digits k).2 = some ds → ds ≠ [] := by
  rcases Notation.positional_cases f hdigits k with ⟨-, hplace⟩ | ⟨hk, hlt, hplace⟩ | ⟨-, hplace⟩
  · rw [hplace]
    rintro _ ⟨⟩
    simp [hdigits]
  · rw [hplace]
    rintro _ ⟨⟩
    rw [ne_eq, List.drop_eq_nil_iff]
    omega
  · rw [hplace]
    intro ds hds
    dsimp only at hds
    split at hds
    · cases hds
      simp
    · cases hds

/-- **The numeral of a finite double is a JSON number**, in every format. -/
theorem isNumber_numeral (f : Notation) {x : Binary64} (hx : x.isFinite = true) :
    isNumber (f.numeral x) = true := by
  have hsign : (if x.negative then some Sign.minus else none) ≠ some .plus := by
    split <;> simp
  cases hzero : x.isZero with
  | true =>
    rw [Notation.numeral_of_isZero f hzero]
    refine isNumber_iff.mpr ⟨hsign, by simp, .inl rfl, ?_, by simp⟩
    cases f.pointed <;> simp
  | false =>
    have hdigits := Notation.shortestDigits_ne_nil f hx hzero
    have hhead := Notation.head_shortestDigits f hx hzero
    cases hk : f.isPositional (f.shortestPoint x) with
    | true =>
      rw [Notation.numeral_of_isPositional f hzero hk]
      exact isNumber_iff.mpr ⟨hsign, (Notation.positional_ne_nil f hdigits _).1,
        positional_head f hdigits hhead _, positional_fraction f hdigits _, by simp⟩
    | false =>
      rw [Notation.numeral_of_not_isPositional f hzero hk]
      obtain ⟨c, cs, hcs⟩ := List.exists_cons_of_ne_nil hdigits
      rw [hcs]
      -- one digit stands before the point, and the point only if there are more
      refine isNumber_iff.mpr ⟨hsign, by simp, .inl rfl, ?_, ?_⟩
      · intro ds hds
        dsimp only at hds
        split at hds
        · cases hds
        · rename_i hlength
          cases hds
          simpa using hlength
      · rintro _ ⟨⟩
        exact Nat.toDigits_ne_nil

/-- A JSON number has digits wherever a numeral may have them. -/
theorem digits_of_isNumber {n : Numeral} (h : isNumber n = true) :
    n.digits ≠ [] ∧ ∀ e, n.exponent = some e → e.digits ≠ [] := by
  obtain ⟨-, hwhole, -, -, hexponent⟩ := isNumber_iff.mp h
  exact ⟨by simp [Numeral.digits, hwhole], hexponent⟩

/-- A JSON number starts with a digit or a minus. -/
theorem chars_of_isNumber {n : Numeral} (hn : n.Proper) (h : isNumber n = true) :
    ∃ c cs, n.chars = c :: cs ∧ (c.isDigit || c = '-') = true := by
  obtain ⟨hsign, hwhole, -⟩ := isNumber_iff.mp h
  obtain ⟨sign, whole, fraction, exponent⟩ := n
  match sign, whole with
  | some .plus, _ => exact absurd rfl hsign
  | some .minus, _ => exact ⟨_, _, rfl, rfl⟩
  | none, [] => exact absurd rfl hwhole
  | none, c :: cs =>
    refine ⟨_, _, rfl, ?_⟩
    rw [hn.whole c List.mem_cons_self, Bool.true_or]

/-! ## Strings -/

/-- The four digits of a control character are hexadecimal and write its number. -/
theorem hexDigits_unit : ∀ n < 32, (Text.paddedHexDigits 4 n).length = 4 ∧
    (Text.paddedHexDigits 4 n).all Text.isHexDigit = true ∧
    Text.ofHexDigits (Text.paddedHexDigits 4 n) = n := by
  decide +kernel

theorem scanEscape_unit {n : Nat} (h : n < 32) (rest : List Char) :
    scanEscape ('u' :: Text.paddedHexDigits 4 n ++ rest) = some (.unit n, 5) := by
  obtain ⟨hlength, hhex, hvalue⟩ := hexDigits_unit n h
  have htake : (Text.paddedHexDigits 4 n ++ rest).take 4 = Text.paddedHexDigits 4 n :=
    List.take_left' hlength
  have hrun : (Text.paddedHexDigits 4 n).takeWhile Text.isHexDigit = Text.paddedHexDigits 4 n := by
    rw [← List.append_nil (Text.paddedHexDigits 4 n),
      takeWhile_run (List.all_eq_true.mp hhex) (by simp), List.append_nil]
  simp only [List.cons_append, scanEscape, htake, hrun, hlength, hvalue, if_true]

/-- The characters that have an escape of their own. -/
def Part.escaped : List Char :=
  ['"', '\\', '\x08', '\x0c', '\n', '\r', '\t']

theorem Part.spell_escaped {c : Char} (h : c ∈ escaped) :
    ∃ d, (char c).spell = ['\\', d] ∧ ∀ rest, scanEscape (d :: rest) = some (char c, 1) := by
  simp only [escaped, List.mem_cons, List.not_mem_nil, or_false] at h
  rcases h with rfl | rfl | rfl | rfl | rfl | rfl | rfl <;> exact ⟨_, rfl, fun _ => rfl⟩

theorem Part.spell_plain {c : Char} (h : c ∉ escaped) : (char c).spell = [c] := by
  simp only [escaped, List.mem_cons, List.not_mem_nil, or_false, not_or] at h
  obtain ⟨hquote, hslash, hback, hfeed, hbreak, hreturn, htab⟩ := h
  exact Part.spell.eq_8 c hquote hslash hback hfeed hbreak hreturn htab

/-- A character is spelled by an escape that gives its part, or by itself where it can stand
for itself. -/
theorem spell_ofChar_cases (c : Char) :
    (∃ escape, (Part.ofChar c).spell = '\\' :: escape ∧
      ∀ rest, scanEscape (escape ++ rest) = some (Part.ofChar c, escape.length)) ∨
    (Part.ofChar c = .char c ∧ (Part.ofChar c).spell = [c] ∧ c ≠ '"' ∧ c ≠ '\\' ∧
      ¬c.toNat < 0x20) := by
  by_cases hunit : c.toNat < 0x20 ∧ c ≠ '\x08' ∧ c ≠ '\x0c' ∧ c ≠ '\n' ∧ c ≠ '\r' ∧ c ≠ '\t'
  · left
    have hpart : Part.ofChar c = .unit c.toNat := if_pos hunit
    refine ⟨'u' :: Text.paddedHexDigits 4 c.toNat, by rw [hpart, Part.spell], ?_⟩
    intro rest
    rw [scanEscape_unit hunit.1, hpart, List.length_cons, (hexDigits_unit c.toNat hunit.1).1]
  · have hpart : Part.ofChar c = .char c := if_neg hunit
    rw [hpart]
    by_cases hescaped : c ∈ Part.escaped
    · left
      obtain ⟨d, hspell, hscan⟩ := Part.spell_escaped hescaped
      exact ⟨[d], hspell, hscan⟩
    · right
      have hspell := Part.spell_plain hescaped
      simp only [Part.escaped, List.mem_cons, List.not_mem_nil, or_false, not_or] at hescaped
      exact ⟨rfl, hspell, hescaped.1, hescaped.2.1, fun hlow => hunit ⟨hlow, hescaped.2.2⟩⟩

/-- Inside a string, a spelled character is scanned as its part. -/
theorem scanString_ofChar (c : Char) (rest : List Char) :
    scanString ((Part.ofChar c).spell ++ rest) = (scanString rest).map fun inside =>
      (Part.ofChar c :: inside.1, (Part.ofChar c).spell.length + inside.2) := by
  rcases spell_ofChar_cases c with ⟨escape, hspell, hescape⟩ | ⟨hpart, hspell, hquote, hslash, hlow⟩
  · rw [hspell, List.cons_append, scanString, if_neg (by decide), if_pos rfl, hescape,
      Option.bind_eq_bind, Option.bind_some]
    dsimp only
    rw [List.drop_left, Option.map_eq_bind, List.length_cons, Nat.add_comm 1 escape.length]
    rfl
  · rw [hspell, hpart, List.singleton_append, scanString, if_neg hquote, if_neg hslash,
      if_neg hlow, Option.map_eq_bind]
    rfl

/-- **The inside of a spelled string** is scanned as its parts, up to the closing quote. -/
theorem scanString_spell (content rest : List Char) :
    scanString ((content.map Part.ofChar).flatMap Part.spell ++ '"' :: rest) =
      some (content.map Part.ofChar,
        ((content.map Part.ofChar).flatMap Part.spell).length + 1) := by
  induction content with
  | nil =>
    rw [List.map_nil, List.flatMap_nil, List.nil_append, scanString, if_pos rfl]
    rfl
  | cons c content ih =>
    rw [List.map_cons, List.flatMap_cons, List.append_assoc, scanString_ofChar, ih,
      Option.map_some, List.length_append, Nat.add_assoc]

theorem decode?_unit {code : Nat} (h : code < 0x20) (parts : List Part) :
    Part.decode? (.unit code :: parts) = (Part.decode? parts).map (Char.ofNat code :: ·) := by
  -- so low a unit is no surrogate, whether or not another one follows
  have hhigh : isHighSurrogate code = false := by
    rw [isHighSurrogate, decide_eq_false (by omega), Bool.false_and]
  have hlow : isLowSurrogate code = false := by
    rw [isLowSurrogate, decide_eq_false (by omega), Bool.false_and]
  match parts with
  | .unit low :: parts => simp [Part.decode?, hhigh, hlow]
  | [] => simp [Part.decode?, hhigh, hlow]
  | .char c :: parts => simp [Part.decode?, hhigh, hlow]

theorem decode?_ofChar (content : List Char) :
    Part.decode? (content.map Part.ofChar) = some content := by
  induction content with
  | nil => rfl
  | cons c content ih =>
    rw [List.map_cons, Part.ofChar]
    split
    · rename_i hunit
      rw [decode?_unit hunit.1, ih, Option.map_some, Char.ofNat_toNat]
    · rw [Part.decode?, ih, Option.map_some]

/-- **A text is decoded from the parts that write it.** -/
theorem text?_ofChar (s : String) : Part.text? (s.toList.map Part.ofChar) = some s := by
  rw [Part.text?, decode?_ofChar, Option.map_some, String.ofList_toList]

/-! ## Tokens -/

namespace Token

/-- Tokens as texts of JSON values hold them: numbers that JSON allows, and strings that write
characters. -/
def Proper : Token → Prop
  | number n => n.Proper ∧ isNumber n = true
  | string parts => ∃ content : List Char, parts = content.map Part.ofChar
  | _ => True

/-- Whether a token has no end of its own. -/
def isOpenEnded : Token → Bool
  | number _ | bool _ | null => true
  | _ => false

end Token

/-- What may follow a number or a word: nothing that could go on with it. -/
def Boundary (rest : List Char) : Prop :=
  ∀ c, rest.head? = some c → c.isAlphanum = false ∧ c ≠ '.'

/-- The marks of exponents are letters, so what ends a word ends a numeral. -/
theorem Boundary.numeral {rest : List Char} (hrest : Boundary rest) : Numeral.Boundary rest := by
  intro c hc
  obtain ⟨hpart, hpoint⟩ := hrest c hc
  rw [Char.isAlphanum, Bool.or_eq_false_iff] at hpart
  refine ⟨hpart.2, hpoint, ?_⟩
  by_contra hmark
  simp only [Exponent.isMark, Bool.or_eq_false_iff, decide_eq_false_iff_not, not_and_or,
    not_not] at hmark
  rcases hmark with rfl | rfl
  · exact absurd hpart.1 (by decide)
  · exact absurd hpart.1 (by decide)

theorem scanToken_number {n : Numeral} (hn : n.Proper) (h : isNumber n = true) {rest : List Char}
    (hrest : Boundary rest) :
    ∃ c cs, n.chars = c :: cs ∧ scanToken c (cs ++ rest) = some (some (.number n), cs.length) := by
  obtain ⟨c, cs, hchars, hstart⟩ := chars_of_isNumber hn h
  obtain ⟨hdigits, hexponent⟩ := digits_of_isNumber h
  have hscan : (Numeral.scan (c :: (cs ++ rest))).1 = n := by
    rw [← List.cons_append, ← hchars, Numeral.scan_chars hn hdigits hexponent hrest.numeral]
  -- a digit or a minus is none of the characters that are asked for first
  have hmarks : ∀ d, (d.isDigit || d = '-') = false → c ≠ d := by
    rintro d hd rfl
    rw [hstart] at hd
    cases hd
  have hblank : isBlank c = false := by
    simp only [isBlank, Bool.or_eq_false_iff, decide_eq_false_iff_not]
    exact ⟨⟨⟨hmarks _ rfl, hmarks _ rfl⟩, hmarks _ rfl⟩, hmarks _ rfl⟩
  refine ⟨c, cs, hchars, ?_⟩
  rw [scanToken, if_neg (by simp [hblank]), if_neg (hmarks _ rfl), if_neg (hmarks _ rfl),
    if_neg (hmarks _ rfl), if_neg (hmarks _ rfl), if_neg (hmarks _ rfl), if_neg (hmarks _ rfl),
    if_neg (hmarks _ rfl), if_pos hstart]
  dsimp only
  rw [hscan, if_pos h, hchars, List.length_cons, Nat.add_sub_cancel]

theorem scanToken_word {c : Char} {cs rest : List Char} {t : Token}
    (hc : isBlank c = false ∧ (c.isDigit || c = '-') = false ∧
      c ∉ ['\x7b', '\x7d', '[', ']', ',', ':', '"'])
    (hcs : cs.all Char.isAlpha = true) (hword : ofWord? (c :: cs) = some t)
    (hrest : Boundary rest) : scanToken c (cs ++ rest) = some (some t, cs.length) := by
  obtain ⟨hblank, hnumber, hmarks⟩ := hc
  simp only [List.mem_cons, List.not_mem_nil, or_false, not_or] at hmarks
  obtain ⟨hopen, hclose, hopen', hclose', hcomma, hcolon, hquote⟩ := hmarks
  have hstop : ∀ d, rest.head? = some d → d.isAlpha = false := by
    intro d hd
    have hpart := (hrest d hd).1
    rw [Char.isAlphanum, Bool.or_eq_false_iff] at hpart
    exact hpart.1
  rw [scanToken, if_neg (by simp [hblank]), if_neg hopen, if_neg hclose, if_neg hopen',
    if_neg hclose', if_neg hcomma, if_neg hcolon, if_neg hquote, if_neg (by simp [hnumber])]
  dsimp only
  rw [takeWhile_run (List.all_eq_true.mp hcs) hstop, hword, Option.map_some]

/-- **A spelled token is scanned as itself**, if what follows does not go on with it. -/
theorem scanToken_spell {t : Token} (ht : t.Proper) {rest : List Char}
    (hrest : t.isOpenEnded = true → Boundary rest) :
    ∃ c cs, t.spell = c :: cs ∧ scanToken c (cs ++ rest) = some (some t, cs.length) := by
  cases t with
  | openBrace | closeBrace | openBracket | closeBracket | comma | colon =>
    exact ⟨_, _, rfl, rfl⟩
  | null =>
    exact ⟨_, _, rfl, scanToken_word (by decide) (by decide) (by decide) (hrest rfl)⟩
  | bool b =>
    cases b <;>
    exact ⟨_, _, rfl, scanToken_word (by decide) (by decide) (by decide) (hrest rfl)⟩
  | number n => exact scanToken_number ht.1 ht.2 (hrest rfl)
  | string parts =>
    obtain ⟨content, rfl⟩ := ht
    refine ⟨'"', (content.map Part.ofChar).flatMap Part.spell ++ ['"'], rfl, ?_⟩
    rw [List.append_assoc, List.singleton_append, List.length_append, List.length_singleton]
    have hquote : ∀ rest, scanToken '"' rest =
        (scanString rest).map fun inside => (some (.string inside.1), inside.2) := fun _ => rfl
    rw [hquote, scanString_spell]
    rfl

/-! ## Layouts -/

/-- A layout whose text gives its tokens back: the blanks are blank, the tokens are proper, and
none of them runs into what follows it. -/
def Readable : List (Piece Token) → Prop
  | [] => True
  | .blank cs :: rest => (∀ c ∈ cs, isBlank c = true) ∧ Readable rest
  | .token t :: rest =>
    t.Proper ∧ (t.isOpenEnded = true → Boundary (Piece.spellAll Token.spell rest)) ∧ Readable rest

theorem scan_cons {c : Char} {cs rest : List Char} {t : Option Token}
    (h : scanToken c (cs ++ rest) = some (t, cs.length)) :
    scan ((c :: cs) ++ rest) = (scan rest).map (t.toList ++ ·) := by
  rw [List.cons_append, scan, h, Option.bind_eq_bind, Option.bind_some]
  dsimp only
  rw [List.drop_left, Option.map_eq_bind]
  rfl

theorem scan_blanks {cs : List Char} (hcs : ∀ c ∈ cs, isBlank c = true) (rest : List Char) :
    scan (cs ++ rest) = scan rest := by
  induction cs with
  | nil => rfl
  | cons c cs ih =>
    rw [List.forall_mem_cons] at hcs
    have hc : scanToken c ([] ++ (cs ++ rest)) = some (none, ([] : List Char).length) := by
      rw [scanToken, if_pos hcs.1]
      rfl
    have hstep := scan_cons hc
    rw [List.singleton_append] at hstep
    rw [List.cons_append, hstep, ih hcs.2]
    simp

/-- **Scanning undoes spelling**: the text of a readable layout has exactly its tokens. -/
theorem scan_spellAll {pieces : List (Piece Token)} (h : Readable pieces) :
    scan (Piece.spellAll Token.spell pieces) = some (pieces.filterMap Piece.token?) := by
  induction pieces with
  | nil => rw [Piece.spellAll, List.flatMap_nil, scan, List.filterMap_nil]
  | cons piece pieces ih =>
    rw [Piece.spellAll, List.flatMap_cons, ← Piece.spellAll]
    cases piece with
    | blank cs =>
      obtain ⟨hcs, hrest⟩ := h
      rw [Piece.spell, scan_blanks hcs, ih hrest]
      rfl
    | token t =>
      obtain ⟨ht, hboundary, hrest⟩ := h
      obtain ⟨c, cs, hspell, hscan⟩ := scanToken_spell ht hboundary
      rw [Piece.spell, hspell, scan_cons hscan, ih hrest]
      rfl

end Json

end DataLisp
