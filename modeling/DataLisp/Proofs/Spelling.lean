/-
Scanning undoes spelling.

A token is spelled by `Token.spell`, and a text is a row of spelled tokens with blanks
between them. This file shows that the scanner finds the tokens again, and nothing to
complain about. Three things have to fit together.

Strings are spelled character by character and read byte by byte: `scanBody_spell` undoes
the escapes, `decode?_encode` the bytes. Words and numbers have no end of their own; they
go on as far as they can, so what follows them must be something else (`Boundary`). And
the scanner is a loop over lexemes, each of which says how far it reaches, so the steps
for single tokens add up to the result for a whole layout (`scanFrom_spellAll`).

The other way round, every token that the scanner finds in any text is properly spelled:
names are identifiers, numerals have digits where they need them.
-/
import DataLisp.Proofs.Numerals
import DataLisp.Text.Piece
import DataLisp.Token.Scan

set_option autoImplicit false

namespace DataLisp

/-! ## Bytes -/

namespace Text.Utf8

theorem toNat_byte {n : Nat} (h : n < 256) : (UInt8.ofNat n).toNat = n := by
  rw [UInt8.toNat_ofNat']
  exact Nat.mod_eq_of_lt h

theorem decodeFrom_byte (s : Option Sequence) {n : Nat} (h : n < 256) (rest : List UInt8) :
    decodeFrom s (UInt8.ofNat n :: rest) = (step s n).1 ++ decodeFrom (step s n).2 rest := by
  cases s <;> rw [decodeFrom, toNat_byte h]

/-- A continuation byte that is not the last one is taken up. -/
theorem decodeFrom_more (bits due : Nat) {low high r : Nat} (hr : r < 64) (hlow : low ≤ 0x80 + r)
    (hhigh : 0x80 + r ≤ high) (rest : List UInt8) :
    decodeFrom (some ⟨bits, due + 2, low, high⟩) (UInt8.ofNat (0x80 + r) :: rest) =
      decodeFrom (some ⟨bits * 64 + r, due + 1, 0x80, 0xBF⟩) rest := by
  have hstep : step (some ⟨bits, due + 2, low, high⟩) (0x80 + r) =
      ([], some ⟨bits * 64 + r, due + 1, 0x80, 0xBF⟩) := by
    have hdue : ¬ due + 2 ≤ 1 := by omega
    simp only [step, if_pos (And.intro hlow hhigh), if_neg hdue, Nat.add_sub_cancel_left]
    rfl
  rw [decodeFrom_byte _ (by omega), hstep, List.nil_append]

/-- The last continuation byte completes the character. -/
theorem decodeFrom_last (bits : Nat) {r : Nat} (hr : r < 64) (rest : List UInt8) :
    decodeFrom (some ⟨bits, 1, 0x80, 0xBF⟩) (UInt8.ofNat (0x80 + r) :: rest) =
      some (Char.ofNat (bits * 64 + r)) :: decodeFrom none rest := by
  have hstep : step (some ⟨bits, 1, 0x80, 0xBF⟩) (0x80 + r) =
      ([some (Char.ofNat (bits * 64 + r))], none) := by
    have hrange : 0x80 ≤ 0x80 + r ∧ 0x80 + r ≤ 0xBF := by omega
    simp only [step, if_pos hrange, Nat.le_refl, if_true, Nat.add_sub_cancel_left]
  rw [decodeFrom_byte _ (by omega), hstep, List.singleton_append]

theorem first_two {n : Nat} (h : 0x80 ≤ n) (h' : n < 0x800) :
    first (0xC0 + n / 64) = ([], some ⟨n / 64, 1, 0x80, 0xBF⟩) := by
  simp only [first]
  rw [if_neg (by omega), if_neg (by omega), if_pos (by omega)]
  simp

/-- The lead byte of a character of three bytes leaves room for the next byte that the
character has: only overlong forms and surrogates would not fit. -/
theorem first_three {n : Nat} (h : 0x800 ≤ n) (h' : n < 0x10000)
    (hvalid : n < 0xD800 ∨ 0xDFFF < n) :
    ∃ low high, first (0xE0 + n / 4096) = ([], some ⟨n / 4096, 2, low, high⟩) ∧
      low ≤ 0x80 + n / 64 % 64 ∧ 0x80 + n / 64 % 64 ≤ high := by
  rw [first, if_neg (by omega), if_neg (by omega), if_neg (by omega)]
  split
  · have hlead : n / 4096 = 0 := by omega
    exact ⟨0xA0, 0xBF, by rw [hlead], by omega, by omega⟩
  split
  · have hlead : n / 4096 = 0x0D := by omega
    exact ⟨0x80, 0x9F, by rw [hlead], by omega, by omega⟩
  rw [if_pos (by omega), Nat.add_sub_cancel_left]
  exact ⟨0x80, 0xBF, rfl, by omega, by omega⟩

theorem first_four {n : Nat} (h : 0x10000 ≤ n) (h' : n < 0x110000) :
    ∃ low high, first (0xF0 + n / 262144) = ([], some ⟨n / 262144, 3, low, high⟩) ∧
      low ≤ 0x80 + n / 4096 % 64 ∧ 0x80 + n / 4096 % 64 ≤ high := by
  rw [first, if_neg (by omega), if_neg (by omega), if_neg (by omega), if_neg (by omega),
    if_neg (by omega), if_neg (by omega)]
  split
  · have hlead : n / 262144 = 0 := by omega
    exact ⟨0x90, 0xBF, by rw [hlead], by omega, by omega⟩
  split
  · rw [Nat.add_sub_cancel_left]
    exact ⟨0x80, 0xBF, rfl, by omega, by omega⟩
  have hlead : n / 262144 = 4 := by omega
  rw [if_pos (by omega)]
  exact ⟨0x80, 0x8F, by rw [hlead], by omega, by omega⟩

/-- The bytes of a character decode to it, and the next byte starts anew. -/
theorem decodeFrom_encodeChar (c : Char) (rest : List UInt8) :
    decodeFrom none (encodeChar c ++ rest) = some c :: decodeFrom none rest := by
  have hvalid : c.toNat < 0xD800 ∨ (0xDFFF < c.toNat ∧ c.toNat < 0x110000) := c.valid
  have hback : Char.ofNat c.toNat = c := Char.ofNat_toNat c
  generalize hn : c.toNat = n at hvalid hback
  -- six bits come with every byte after the first, and put together they are `n` again
  have hlow : n / 64 * 64 + n % 64 = n := by omega
  have hmiddle : n / 4096 * 64 + n / 64 % 64 = n / 64 := by omega
  have hhigh : n / 262144 * 64 + n / 4096 % 64 = n / 4096 := by omega
  simp only [encodeChar, hn]
  split
  · rename_i hone
    have hfirst : first n = ([some (Char.ofNat n)], none) := by rw [first, if_pos hone]
    rw [List.singleton_append, decodeFrom_byte none (by omega), step, hfirst, hback,
      List.singleton_append]
  split
  · rename_i hone htwo
    rw [List.cons_append, List.singleton_append, decodeFrom_byte none (by omega), step,
      first_two (by omega) htwo, List.nil_append, decodeFrom_last _ (by omega), hlow, hback]
  split
  · rename_i hone htwo hthree
    obtain ⟨least, most, hfirst, hleast, hmost⟩ := first_three (by omega) hthree (by omega)
    rw [List.cons_append, List.cons_append, List.singleton_append, decodeFrom_byte none (by omega),
      step, hfirst, List.nil_append, decodeFrom_more _ 0 (by omega) hleast hmost, hmiddle,
      decodeFrom_last _ (by omega), hlow, hback]
  · obtain ⟨least, most, hfirst, hleast, hmost⟩ :=
      first_four (by omega : 0x10000 ≤ n) (by omega)
    rw [List.cons_append, List.cons_append, List.cons_append, List.singleton_append,
      decodeFrom_byte none (by omega), step, hfirst, List.nil_append,
      decodeFrom_more _ 1 (by omega) hleast hmost, hhigh,
      decodeFrom_more _ 0 (by omega) (Nat.le_add_right _ _) (by omega), hmiddle,
      decodeFrom_last _ (by omega), hlow, hback]

/-- **What is encoded is decoded again.** -/
theorem decode?_encode (cs : List Char) : decode? (encode cs) = some cs := by
  have hdecode : decode (encode cs) = cs.map some := by
    rw [decode]
    induction cs with
    | nil => rfl
    | cons c cs ih =>
      rw [encode, List.flatMap_cons, decodeFrom_encodeChar, List.map_cons]
      exact congrArg _ ih
  rw [decode?, hdecode, List.mapM_map]
  simpa using List.mapM_pure (m := Option) (l := cs) (f := id)

end Text.Utf8

namespace Token

/-! ## Strings -/

/-- A backslash in a string, with the escape that it starts. -/
theorem scanBody_backslash {quote : Char} (hquote : '\\' ≠ quote) (p : Position)
    (rest : List Char) :
    scanBody quote p ('\\' :: rest) =
      let e := Escape.scan rest
      let inside := p.next '\\'
      let body := scanBody quote (inside.advance (rest.take e.length)) (rest.drop e.length)
      ⟨e.bytes ++ body.bytes, body.closed, 1 + e.length + body.length,
        (e.problem.map (·.report inside)).toList ++ body.problems⟩ := by
  have hbreak : ('\\' : Char) ≠ '\n' := by decide
  rw [scanBody, if_neg hbreak, if_neg hquote, if_pos rfl]

/-- An escape without a fault gives its bytes, and the string goes on after it. -/
theorem scanBody_escape {quote : Char} (hquote : quote ≠ '\\') {escape : List Char}
    {bytes : List UInt8} (p : Position) (rest : List Char)
    (hescape : Escape.scan (escape ++ rest) = ⟨bytes, none, escape.length⟩) :
    scanBody quote p ('\\' :: (escape ++ rest)) =
      let body := scanBody quote (p.advance ('\\' :: escape)) rest
      ⟨bytes ++ body.bytes, body.closed, (escape.length + 1) + body.length, body.problems⟩ := by
  rw [scanBody_backslash hquote.symm]
  simp only [hescape, List.take_left, List.drop_left, Option.map_none, Option.toList_none,
    List.nil_append, Nat.add_comm 1 escape.length]
  rfl

theorem scanBody_plain {quote c : Char} (hbreak : c ≠ '\n') (hquote : c ≠ quote)
    (hescape : c ≠ '\\') (p : Position) (rest : List Char) :
    scanBody quote p (c :: rest) =
      let body := scanBody quote (p.advance [c]) rest
      ⟨Text.Utf8.encodeChar c ++ body.bytes, body.closed, 1 + body.length, body.problems⟩ := by
  rw [scanBody, if_neg hbreak, if_neg hquote, if_neg hescape]
  rfl

/-- The four digits that the writer gives a control character: they are hexadecimal, and
they write its number. -/
theorem hexDigits_control : ∀ n < 160,
    ((Text.paddedHexDigits 4 n).map Char.toUpper).length = 4 ∧
      ((Text.paddedHexDigits 4 n).map Char.toUpper).all Text.isHexDigit = true ∧
      Text.ofHexDigits ((Text.paddedHexDigits 4 n).map Char.toUpper) = n := by
  decide +kernel

/-- A numeric escape takes as many digits as its width, whatever follows. -/
theorem numeric_run {digits : List Char} (hdigits : ∀ c ∈ digits, Text.isHexDigit c = true)
    (rest : List Char) (give : Nat → List UInt8 × Option Problem) :
    Escape.numeric digits.length (digits ++ rest) give =
      ⟨(give (Text.ofHexDigits digits)).1, (give (Text.ofHexDigits digits)).2,
        1 + digits.length⟩ := by
  have hrun : digits.takeWhile Text.isHexDigit = digits := by
    rw [← List.append_nil digits, takeWhile_run hdigits (by simp), List.append_nil]
  simp only [Escape.numeric, List.take_left, hrun, if_true]

/-- The spelling of a character inside a string is an escape that gives the character, or
the character itself where it can stand for itself. -/
theorem spellChar_cases (c : Char) :
    (∃ escape, spellChar c = '\\' :: escape ∧ ∀ rest,
      Escape.scan (escape ++ rest) = ⟨Text.Utf8.encodeChar c, none, escape.length⟩) ∨
    (spellChar c = [c] ∧ c ≠ '\n' ∧ c ≠ '"' ∧ c ≠ '\\') := by
  unfold spellChar
  -- first the characters that have an escape of their own, then controls, then all others
  split
  · exact .inl ⟨_, rfl, fun _ => rfl⟩
  · exact .inl ⟨_, rfl, fun _ => rfl⟩
  · exact .inl ⟨_, rfl, fun _ => rfl⟩
  · exact .inl ⟨_, rfl, fun _ => rfl⟩
  · exact .inl ⟨_, rfl, fun _ => rfl⟩
  · exact .inl ⟨_, rfl, fun _ => rfl⟩
  · exact .inl ⟨_, rfl, fun _ => rfl⟩
  · exact .inl ⟨_, rfl, fun _ => rfl⟩
  · exact .inl ⟨_, rfl, fun _ => rfl⟩
  · rename_i hslash hquote hbreak _ _ _ _ _ _
    split
    · rename_i hcontrol
      -- a control character is below 160, so four digits are enough for it
      have hsmall : c.toNat < 160 := by
        simp only [Text.isControl, Bool.or_eq_true, Bool.and_eq_true, decide_eq_true_eq] at hcontrol
        omega
      obtain ⟨hlength, hhex, hvalue⟩ := hexDigits_control c.toNat hsmall
      refine .inl ⟨_, rfl, ?_⟩
      intro rest
      have hrun := numeric_run (List.all_eq_true.mp hhex) rest Escape.scalar
      have hvalid : c.toNat.isValidChar := c.valid
      rw [hlength, hvalue, Escape.scalar, if_pos hvalid, Char.ofNat_toNat] at hrun
      rw [List.cons_append, Escape.scan, hrun, List.length_cons, hlength]
    · exact .inr ⟨rfl, hbreak, hquote, hslash⟩

/-- Inside a string, a spelled character gives its bytes. -/
theorem scanBody_spellChar (c : Char) (p : Position) (rest : List Char) :
    scanBody '"' p (spellChar c ++ rest) =
      let body := scanBody '"' (p.advance (spellChar c)) rest
      ⟨Text.Utf8.encodeChar c ++ body.bytes, body.closed, (spellChar c).length + body.length,
        body.problems⟩ := by
  rcases spellChar_cases c with ⟨escape, hspell, hescape⟩ | ⟨hspell, hbreak, hquote, hslash⟩
  · rw [hspell, List.cons_append, scanBody_escape (by decide) p rest (hescape rest),
      List.length_cons]
  · rw [hspell, List.singleton_append, scanBody_plain hbreak hquote hslash, List.length_singleton]

/-- **The inside of a spelled string** is its bytes up to the closing quote, with no fault. -/
theorem scanBody_spell (content : List Char) (p : Position) (rest : List Char) :
    scanBody '"' p (content.flatMap spellChar ++ '"' :: rest) =
      ⟨Text.Utf8.encode content, true, (content.flatMap spellChar).length + 1, []⟩ := by
  induction content generalizing p with
  | nil =>
    -- only the closing quote is left
    rw [List.flatMap_nil, List.nil_append, scanBody, if_neg (by decide), if_pos rfl]
    rfl
  | cons c content ih =>
    rw [List.flatMap_cons, List.append_assoc, scanBody_spellChar]
    simp only [ih, Text.Utf8.encode, List.flatMap_cons, List.length_append, Nat.add_assoc]

/-! ## Tokens of the scanner -/

/-- Tokens as the scanner makes them: an identifier is a word and no keyword, and a number
is a numeral of its class. -/
def Proper : Token → Prop
  | identifier name => isIdentifier name = true
  | integer n => n.Proper ∧ n.isInteger = true
  | float n => n.Proper ∧ n.isFloat = true
  | _ => True

/-- Whether a token has no end of its own: a word or a number goes on as long as it can. -/
def isOpenEnded : Token → Bool
  | identifier _ | integer _ | float _ | bool _ | null => true
  | _ => false

/-- What may follow a word or a number: nothing that could go on with it. -/
def Boundary (rest : List Char) : Prop :=
  ∀ c, rest.head? = some c → isWordPart c = false ∧ c ≠ '.'

/-- Digits and marks of exponents are parts of words, so what ends a word ends a numeral. -/
theorem Boundary.numeral {rest : List Char} (hrest : Boundary rest) : Numeral.Boundary rest := by
  intro c hc
  obtain ⟨hpart, hpoint⟩ := hrest c hc
  simp only [isWordPart, Char.isAlphanum, Bool.or_eq_false_iff, decide_eq_false_iff_not] at hpart
  obtain ⟨⟨halpha, hdigit⟩, hlow⟩ := hpart
  refine ⟨hdigit, hpoint, ?_⟩
  -- the marks of exponents are letters
  by_contra hmark
  simp only [Exponent.isMark, Bool.or_eq_false_iff, decide_eq_false_iff_not, not_and_or,
    not_not] at hmark
  rcases hmark with rfl | rfl
  · exact absurd halpha (by decide)
  · exact absurd halpha (by decide)

namespace Lexeme

theorem isBlank_visible {c : Char} (hlow : 0x21 ≤ c.toNat) (hhigh : c.toNat < 0x7F) :
    Text.isBlank c = false := by
  simp only [Text.isBlank, Bool.or_eq_false_iff, Bool.and_eq_false_iff, decide_eq_false_iff_not,
    beq_eq_false_iff_ne]
  omega

theorem toNat_isDigit {c : Char} (hc : c.isDigit = true) : 48 ≤ c.toNat ∧ c.toNat ≤ 57 := by
  simp only [Char.isDigit, Bool.and_eq_true, decide_eq_true_eq, UInt32.le_iff_toNat_le] at hc
  exact hc

theorem toNat_isAlpha {c : Char} (hc : c.isAlpha = true) :
    (65 ≤ c.toNat ∧ c.toNat ≤ 90) ∨ (97 ≤ c.toNat ∧ c.toNat ≤ 122) := by
  have hletter : (decide (65 ≤ c.val ∧ c.val ≤ 90) || decide (97 ≤ c.val) && decide (c.val ≤ 122))
      = true := hc
  simp only [Bool.or_eq_true, Bool.and_eq_true, decide_eq_true_eq,
    UInt32.le_iff_toNat_le] at hletter
  exact hletter

/-- The characters that are tokens by themselves or start a comment, an expression or a string. -/
def marks : List Char :=
  [';', '(', ')', '[', ']', ',', ':', '$', '"', '\'']

/-- A class of characters without marks tells its characters from the marks. -/
theorem ne_mark {f : Char → Bool} (hf : (marks.all fun d => !f d) = true) {c : Char}
    (hc : f c = true) : ∀ d ∈ marks, c ≠ d := by
  rintro d hd rfl
  have hnot := List.all_eq_true.mp hf c hd
  rw [hc] at hnot
  cases hnot

/-- A visible character that is no mark starts a number or a word, or is invalid. -/
theorem scan_other {c : Char} (hblank : Text.isBlank c = false) (hmarks : ∀ d ∈ marks, c ≠ d)
    (p : Position) (rest : List Char) :
    scan p c rest =
      if isNumberStart c then number p (c :: rest)
      else if isWordStart c then
        plain (.ofWord (c :: rest.takeWhile isWordPart)) (rest.takeWhile isWordPart).length
      else fault p 0 (.invalidCharacter c) := by
  simp only [marks, List.forall_mem_cons] at hmarks
  obtain ⟨hcomment, hopen, hclose, hopen', hclose', hcomma, hcolon, hdollar, hquote, hquote', -⟩ :=
    hmarks
  rw [scan, if_neg (by simp [hblank]), if_neg hcomment, if_neg hopen, if_neg hclose, if_neg hopen',
    if_neg hclose', if_neg hcomma, if_neg hcolon, if_neg hdollar,
    if_neg (by simp [hquote, hquote'])]

/-- A character that may start a number decides for a number. -/
theorem scan_number {c : Char} (hc : isNumberStart c = true) (p : Position) (rest : List Char) :
    scan p c rest = number p (c :: rest) := by
  have hblank : Text.isBlank c = false := by
    simp only [isNumberStart, Bool.or_eq_true, decide_eq_true_eq] at hc
    rcases hc with ((hdigit | rfl) | rfl) | rfl
    · have hrange := toNat_isDigit hdigit
      exact isBlank_visible (by omega) (by omega)
    · rfl
    · rfl
    · rfl
  rw [scan_other hblank (ne_mark (by decide) hc), if_pos hc]

/-- A letter or an underline decides for a word, which goes on as far as it can. -/
theorem scan_word {c : Char} (hc : isWordStart c = true) (p : Position) (rest : List Char) :
    scan p c rest =
      plain (.ofWord (c :: rest.takeWhile isWordPart)) (rest.takeWhile isWordPart).length := by
  have hcases := hc
  simp only [isWordStart, Bool.or_eq_true, decide_eq_true_eq] at hcases
  have hblank : Text.isBlank c = false := by
    rcases hcases with halpha | rfl
    · have hrange := toNat_isAlpha halpha
      exact isBlank_visible (by omega) (by omega)
    · rfl
  -- numbers are asked for first, so a word must not look like one
  have hnumber : isNumberStart c = false := by
    rcases hcases with halpha | rfl
    · have hletter := toNat_isAlpha halpha
      by_contra h
      simp only [isNumberStart, Bool.not_eq_false, Bool.or_eq_true, decide_eq_true_eq] at h
      rcases h with ((hdigit | rfl) | rfl) | rfl
      · have hrange := toNat_isDigit hdigit
        omega
      · exact absurd hletter (by decide)
      · exact absurd hletter (by decide)
      · exact absurd hletter (by decide)
    · rfl
  rw [scan_other hblank (ne_mark (by decide) hc), if_neg (by simp [hnumber]), if_pos hc]

theorem scan_word_run {c : Char} {cs rest : List Char} (hc : isWordStart c = true)
    (hcs : ∀ d ∈ cs, isWordPart d = true) (hrest : Boundary rest) (p : Position) :
    scan p c (cs ++ rest) = plain (.ofWord (c :: cs)) cs.length := by
  have hstop : ∀ d, rest.head? = some d → isWordPart d = false := fun d hd => (hrest d hd).1
  rw [scan_word hc, takeWhile_run hcs hstop]

theorem numberStart_chars {n : Numeral} (hn : n.Proper) (hdigits : n.digits ≠ []) :
    ∃ c cs, n.chars = c :: cs ∧ isNumberStart c = true := by
  obtain ⟨sign, whole, fraction, exponent⟩ := n
  have hdigit : ∀ c, c.isDigit = true → isNumberStart c = true := by
    intro c hc
    simp only [isNumberStart, hc, Bool.true_or]
  match sign, whole, fraction with
  | some .plus, _, _ => exact ⟨_, _, rfl, rfl⟩
  | some .minus, _, _ => exact ⟨_, _, rfl, rfl⟩
  | none, c :: cs, _ => exact ⟨_, _, rfl, hdigit c (hn.whole c List.mem_cons_self)⟩
  | none, [], some digits => exact ⟨_, _, rfl, rfl⟩
  | none, [], none => exact absurd rfl hdigits

/-- The number at the start of a written numeral is that numeral. -/
theorem number_chars {n : Numeral} (hn : n.Proper) (hdigits : n.digits ≠ [])
    (hexponent : ∀ e, n.exponent = some e → e.digits ≠ []) {rest : List Char}
    (hrest : Boundary rest) (p : Position) :
    number p (n.chars ++ rest) =
      if n.isInteger then plain (.integer n) (n.chars.length - 1)
      else if n.isFloat then plain (.float n) (n.chars.length - 1)
      else fault p (n.chars.length - 1) (.invalidNumber n.chars) := by
  simp only [number, Numeral.scan_chars hn hdigits hexponent hrest.numeral]

/-- The string after a quote is its content, and the text goes on after the closing quote. -/
theorem string_spell (content : List Char) (p : Position) (rest : List Char) :
    string p '"' (content.flatMap spellChar ++ '"' :: rest) =
      plain (.string content) ((content.flatMap spellChar).length + 1) := by
  simp only [string, scanBody_spell, Text.Utf8.decode?_encode, if_true, List.append_nil]
  rfl

/-- A written numeral is one lexeme, of the class that it has. -/
theorem scan_numeral {n : Numeral} (hn : n.Proper) (hdigits : n.digits ≠ [])
    (hexponent : ∀ e, n.exponent = some e → e.digits ≠ []) {rest : List Char}
    (hrest : Boundary rest) {t : Token}
    (ht : (if n.isInteger then some (Token.integer n)
      else if n.isFloat then some (.float n) else none) = some t) :
    ∃ c cs, n.chars = c :: cs ∧ ∀ p, scan p c (cs ++ rest) = plain t cs.length := by
  obtain ⟨c, cs, hchars, hstart⟩ := numberStart_chars hn hdigits
  refine ⟨c, cs, hchars, ?_⟩
  intro p
  rw [scan_number hstart, ← List.cons_append, ← hchars, number_chars hn hdigits hexponent hrest,
    hchars, List.length_cons, Nat.add_sub_cancel]
  by_cases hinteger : n.isInteger = true
  · rw [if_pos hinteger] at ht ⊢
    cases ht
    rfl
  by_cases hfloat : n.isFloat = true
  · rw [if_neg hinteger, if_pos hfloat] at ht ⊢
    cases ht
    rfl
  · rw [if_neg hinteger, if_neg hfloat] at ht
    cases ht

/-- **A spelled token is one lexeme**, if what follows does not go on with it. -/
theorem scan_spell {t : Token} (ht : t.Proper) {rest : List Char}
    (hrest : t.isOpenEnded = true → Boundary rest) :
    ∃ c cs, t.spell = c :: cs ∧ ∀ p, scan p c (cs ++ rest) = plain t cs.length := by
  match t with
  | .openParen | .closeParen | .openBracket | .closeBracket | .openExpression | .comma | .colon =>
    exact ⟨_, _, rfl, fun _ => rfl⟩
  | .identifier [] => cases ht
  | .identifier (c :: cs) =>
    simp only [Proper, isIdentifier, Bool.and_eq_true, List.all_eq_true, decide_eq_true_eq] at ht
    obtain ⟨⟨hc, hcs⟩, hword⟩ := ht
    refine ⟨c, cs, rfl, ?_⟩
    intro p
    rw [scan_word_run hc hcs (hrest rfl), hword]
  | .bool true | .bool false | .null =>
    refine ⟨_, _, rfl, ?_⟩
    intro p
    rw [scan_word_run (by decide) (List.all_eq_true.mp (by decide)) (hrest rfl)]
    rfl
  | .integer n =>
    obtain ⟨hdigits, hexponent⟩ := Numeral.digits_of_isInteger ht.2
    exact scan_numeral ht.1 hdigits hexponent (hrest rfl) (by rw [if_pos ht.2])
  | .float n =>
    obtain ⟨hdigits, hexponent⟩ := Numeral.digits_of_isFloat ht.2
    have hinteger := Numeral.isInteger_eq_false_of_isFloat ht.2
    exact scan_numeral ht.1 hdigits hexponent (hrest rfl)
      (by rw [if_neg (by simp [hinteger]), if_pos ht.2])
  | .string content =>
    refine ⟨'"', content.flatMap spellChar ++ ['"'], rfl, ?_⟩
    intro p
    rw [List.append_assoc, List.singleton_append, List.length_append, List.length_singleton]
    exact string_spell content p rest

end Lexeme

/-! ## Layouts -/

theorem scanFrom_nil (p : Position) : scanFrom p [] = ⟨[], p, []⟩ := by
  rw [scanFrom.eq_def]

/-- The scan of a text is its first lexeme and the scan of what follows it. -/
theorem scanFrom_cons (p : Position) (c : Char) (rest : List Char) :
    scanFrom p (c :: rest) =
      let lexeme := Lexeme.scan p c rest
      let more := scanFrom ((p.next c).advance (rest.take lexeme.length))
        (rest.drop lexeme.length)
      ⟨(lexeme.token.map (⟨·, p⟩)).toList ++ more.tokens, more.stop,
        lexeme.problems ++ more.problems⟩ := by
  rw [scanFrom.eq_def]

/-- A lexeme without a fault, and the scan of what follows it. -/
theorem scanFrom_lexeme {p : Position} {c : Char} {cs rest : List Char} {t : Option Token}
    (h : Lexeme.scan p c (cs ++ rest) = ⟨t, cs.length, []⟩) :
    scanFrom p ((c :: cs) ++ rest) =
      let more := scanFrom (p.advance (c :: cs)) rest
      ⟨(t.map (⟨·, p⟩)).toList ++ more.tokens, more.stop, more.problems⟩ := by
  rw [List.cons_append, scanFrom_cons]
  simp only [h, List.take_left, List.drop_left, List.nil_append]
  rfl

theorem scanFrom_blanks {cs : List Char} (hcs : ∀ c ∈ cs, Text.isBlank c = true) (p : Position)
    (rest : List Char) : scanFrom p (cs ++ rest) = scanFrom (p.advance cs) rest := by
  induction cs generalizing p with
  | nil => rfl
  | cons c cs ih =>
    have hc : Lexeme.scan p c ([] ++ (cs ++ rest)) = ⟨none, ([] : List Char).length, []⟩ := by
      rw [Lexeme.scan, if_pos (hcs c List.mem_cons_self)]
      rfl
    have hstep := scanFrom_lexeme hc
    rw [List.singleton_append] at hstep
    rw [List.cons_append, hstep, ih (fun d hd => hcs d (List.mem_cons_of_mem c hd))]
    rfl

/-- A layout whose text gives its tokens back: the blanks are blank, the tokens are those
of the scanner, and none of them runs into what follows it. -/
def Readable : List (Piece Token) → Prop
  | [] => True
  | .blank cs :: rest => (∀ c ∈ cs, Text.isBlank c = true) ∧ Readable rest
  | .token t :: rest =>
    t.Proper ∧ (t.isOpenEnded = true → Boundary (Piece.spellAll spell rest)) ∧ Readable rest

/-- **Scanning undoes spelling**: the text of a readable layout has exactly its tokens, and
no fault. -/
theorem scanFrom_spellAll {pieces : List (Piece Token)} (h : Readable pieces) (p : Position) :
    (scanFrom p (Piece.spellAll spell pieces)).tokens.map PlacedToken.token
        = pieces.filterMap Piece.token? ∧
      (scanFrom p (Piece.spellAll spell pieces)).problems = [] := by
  induction pieces generalizing p with
  | nil =>
    rw [Piece.spellAll, List.flatMap_nil, scanFrom_nil]
    exact ⟨rfl, rfl⟩
  | cons piece pieces ih =>
    rw [Piece.spellAll, List.flatMap_cons, ← Piece.spellAll]
    match piece with
    | .blank cs =>
      obtain ⟨hcs, hrest⟩ := h
      rw [Piece.spell, scanFrom_blanks hcs]
      exact ih hrest _
    | .token t =>
      obtain ⟨ht, hboundary, hrest⟩ := h
      obtain ⟨c, cs, hspell, hscan⟩ := Lexeme.scan_spell ht hboundary
      obtain ⟨htokens, hproblems⟩ := ih hrest (p.advance (c :: cs))
      rw [Piece.spell, hspell, scanFrom_lexeme (hscan p)]
      refine ⟨?_, hproblems⟩
      rw [List.filterMap_cons_some (f := Piece.token?) rfl, ← htokens]
      rfl

/-! ## Tokens found in any text -/

/-- What the scanner takes for a numeral has digits in its parts. -/
theorem proper_numeral_scan (cs : List Char) : (Numeral.scan cs).1.Proper := by
  have hrun : ∀ ds : List Char, ∀ c ∈ ds.takeWhile Char.isDigit, c.isDigit = true :=
    fun ds c hc => List.mem_takeWhile_imp hc
  have hexponent : ∀ (ds : List Char) e, (Exponent.scan ds).1 = some e →
      Exponent.isMark e.mark = true ∧ ∀ c ∈ e.digits, c.isDigit = true := by
    intro ds e he
    match ds with
    | [] => cases he
    | d :: ds =>
      simp only [Exponent.scan] at he
      split at he
      · rename_i hmark
        cases he
        exact ⟨hmark, hrun _⟩
      · cases he
  refine ⟨hrun _, ?_, fun e he => (hexponent _ e he).1, fun e he => (hexponent _ e he).2⟩
  intro c hc
  simp only [Numeral.scan, Numeral.scanFraction] at hc
  split at hc
  · exact hrun _ c hc
  · cases hc

theorem proper_ofWord {c : Char} {cs : List Char} (hc : isWordStart c = true)
    (hcs : ∀ d ∈ cs, isWordPart d = true) : (ofWord (c :: cs)).Proper := by
  have hcases : ofWord (c :: cs) = bool true ∨ ofWord (c :: cs) = bool false ∨
      ofWord (c :: cs) = null ∨ ofWord (c :: cs) = identifier (c :: cs) := by
    unfold ofWord
    split
    · exact .inl rfl
    split
    · exact .inr (.inl rfl)
    split
    · exact .inr (.inr (.inl rfl))
    · exact .inr (.inr (.inr rfl))
  rcases hcases with h | h | h | h
  · rw [h]; trivial
  · rw [h]; trivial
  · rw [h]; trivial
  · rw [h]
    simp only [Proper, isIdentifier, Bool.and_eq_true, List.all_eq_true, decide_eq_true_eq]
    exact ⟨⟨hc, hcs⟩, h⟩

/-- Everything that is wrong with the inside of a string is an error. -/
theorem scanBody_problems (quote : Char) (p : Position) (cs : List Char) :
    ∀ d ∈ (scanBody quote p cs).problems, d.isError = true := by
  induction p, cs using scanBody.induct quote with
  | case1 p => simp [scanBody]
  | case2 p rest => simp [scanBody]
  | case3 p rest hbreak => simp [scanBody, hbreak]
  | case4 p rest e hbreak hquote inside ih =>
    intro d hd
    rw [scanBody_backslash hquote] at hd
    simp only [List.mem_append, Option.mem_toList, Option.map_eq_some_iff] at hd
    rcases hd with ⟨problem, -, rfl⟩ | hd
    · rfl
    · exact ih d hd
  | case5 p c rest hbreak hquote hescape ih =>
    intro d hd
    rw [scanBody, if_neg hbreak, if_neg hquote, if_neg hescape] at hd
    exact ih d hd

namespace Lexeme

/-- What is said of any lexeme: its token is properly spelled, and what is wrong with it
are errors. -/
structure Sound (lexeme : Lexeme) : Prop where
  token : ∀ t, lexeme.token = some t → t.Proper
  problems : ∀ d ∈ lexeme.problems, d.isError = true

theorem sound_plain {t : Token} (ht : t.Proper) (length : Nat) : (plain t length).Sound where
  token := by rintro _ ⟨⟩; exact ht
  problems := by simp [plain]

theorem sound_skip (length : Nat) : (skip length).Sound where
  token := by rintro _ ⟨⟩
  problems := by simp [skip]

theorem sound_fault (p : Position) (length : Nat) (problem : Problem) :
    (fault p length problem).Sound where
  token := by rintro _ ⟨⟩
  problems := by
    intro d hd
    rw [List.mem_singleton.mp hd]
    rfl

/-- What is wrong with a string is wrong with its inside, or is reported at its start. -/
theorem string_problems {p : Position} {quote : Char} {rest : List Char} {d : Diagnostic}
    (hd : d ∈ (string p quote rest).problems) :
    d ∈ (scanBody quote (p.next quote) rest).problems ∨
      ∃ problem : Problem, d = problem.report p := by
  have hopen : ∀ closed : Bool,
      d ∈ (if closed then [] else [Problem.unterminatedString.report p]) →
        ∃ problem : Problem, d = problem.report p := by
    intro closed hd
    cases closed
    · exact ⟨_, List.mem_singleton.mp hd⟩
    · cases hd
  unfold string at hd
  dsimp only at hd
  split at hd
  · exact (List.mem_append.mp hd).imp_right (hopen _)
  · rcases List.mem_append.mp hd with hd | hd
    · exact (List.mem_append.mp hd).imp_right (hopen _)
    · exact .inr ⟨_, List.mem_singleton.mp hd⟩

theorem sound_string (p : Position) (quote : Char) (rest : List Char) :
    (string p quote rest).Sound where
  token := by
    intro t ht
    unfold string at ht
    dsimp only at ht
    split at ht
    · cases ht
      trivial
    · cases ht
      trivial
  problems := by
    intro d hd
    rcases string_problems hd with hd | ⟨problem, rfl⟩
    · exact scanBody_problems quote (p.next quote) rest d hd
    · rfl

theorem number_cases {P : Lexeme → Prop} {p : Position}
    (plain : ∀ t : Token, t.Proper → ∀ length, P (plain t length))
    (fault : ∀ length problem, P (fault p length problem)) (cs : List Char) : P (number p cs) := by
  unfold number
  dsimp only
  split
  · rename_i hint
    exact plain (.integer _) ⟨proper_numeral_scan cs, hint⟩ _
  split
  · rename_i hfloat
    exact plain (.float _) ⟨proper_numeral_scan cs, hfloat⟩ _
  · exact fault _ _

/-- **The cases of a lexeme.** What is said of every properly spelled token, of gaps, of faults at
the start and of strings is said of the lexeme at any place of any text. -/
theorem scan_cases {P : Lexeme → Prop} {p : Position} {c : Char} {rest : List Char}
    (plain : ∀ t : Token, t.Proper → ∀ length, P (plain t length))
    (skip : ∀ length, P (skip length)) (fault : ∀ length problem, P (fault p length problem))
    (string : P (string p c rest)) : P (scan p c rest) := by
  have hite : ∀ {condition : Prop} [Decidable condition] {yes no : Lexeme},
      (condition → P yes) → P no → P (if condition then yes else no) := by
    intro condition _ yes no hyes hno
    split
    · exact hyes ‹_›
    · exact hno
  unfold scan
  refine hite (fun _ => skip _) (hite (fun _ => skip _) ?_)
  refine hite (fun _ => plain .openParen trivial _) (hite (fun _ => plain .closeParen trivial _) ?_)
  refine hite (fun _ => plain .openBracket trivial _) ?_
  refine hite (fun _ => plain .closeBracket trivial _) ?_
  refine hite (fun _ => plain .comma trivial _) (hite (fun _ => plain .colon trivial _) ?_)
  refine hite (fun _ => hite (fun _ => plain .openExpression trivial _) (fault _ _)) ?_
  refine hite (fun _ => string) (hite (fun _ => number_cases plain fault (c :: rest)) ?_)
  refine hite (fun hstart => ?_) (fault _ _)
  exact plain _ (proper_ofWord hstart fun d hd => List.mem_takeWhile_imp hd) _

theorem sound_scan (p : Position) (c : Char) (rest : List Char) : (scan p c rest).Sound :=
  scan_cases (fun _ => sound_plain) sound_skip (sound_fault p) (sound_string p c rest)

end Lexeme

/-- **Every token of any text is properly spelled**, and everything that is wrong with the
spelling of a text is an error. -/
theorem scanFrom_sound (p : Position) (cs : List Char) :
    (∀ t ∈ (scanFrom p cs).tokens, t.token.Proper) ∧
      ∀ d ∈ (scanFrom p cs).problems, d.isError = true := by
  induction p, cs using scanFrom.induct with
  | case1 p => simp [scanFrom_nil]
  | case2 p c rest lexeme next ih =>
    have hsound := Lexeme.sound_scan p c rest
    rw [scanFrom_cons]
    refine ⟨?_, ?_⟩
    · intro t ht
      simp only [List.mem_append, Option.mem_toList, Option.map_eq_some_iff] at ht
      rcases ht with ⟨token, htoken, rfl⟩ | ht
      · exact hsound.token token htoken
      · exact ih.1 t ht
    · intro d hd
      rcases List.mem_append.mp hd with hd | hd
      · exact hsound.problems d hd
      · exact ih.2 d hd

/-- **Every token of a text is as the scanner makes them**, and every fault in it is an error. -/
theorem scan_sound (text : String) :
    (∀ t ∈ (scan text).tokens, t.token.Proper) ∧ ∀ d ∈ (scan text).problems, d.isError = true :=
  scanFrom_sound .start text.toList

end Token

end DataLisp
