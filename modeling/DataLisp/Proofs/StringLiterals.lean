/-
All spellings of a string mean the same.

Inside quotes a character may stand for itself, follow a backslash, have a letter of its own, or be
given by its number in four or eight digits or byte by byte. `Spelled` says which texts spell a
content in one of the two quotes: every character in any of the ways that are open to it, with lines
joined by a backslash wherever one spelling ends, also between the bytes of one character. It is
stated without the scanner.

What the scanner does inside a string is said of pieces of text (`Gives`): whatever follows, a
piece contributes its bytes and is taken as a whole. Pieces may be put together, so it is enough to
look at single escapes. The fixed widths matter here, for a digit may follow the digits of an
escape. That some bytes come from one sort of escape and others from another makes no difference,
since all that is decoded in the end is their row (`scan_spelled`).
-/
import DataLisp.Proofs.Spelling

set_option autoImplicit false

namespace DataLisp.Token

/-! ## Spellings -/

/-- The letters that stand for a control after a backslash, each with the control. -/
def mnemonics : List (Char × Char) :=
  [('n', '\n'), ('t', '\t'), ('r', '\r'), ('a', '\x07'), ('b', '\x08'), ('f', '\x0c'),
    ('v', '\x0b')]

/-- The letters that announce a number after a backslash. -/
def numberLetters : List Char :=
  ['x', 'u', 'U']

/-- Hexadecimal digits of either case that write a number in a given width. -/
structure WritesHex (width code : Nat) (digits : List Char) : Prop where
  length : digits.length = width
  digit : ∀ c ∈ digits, Text.isHexDigit c = true
  value : Text.ofHexDigits digits = code

/-- The spellings of bytes, each by its number in two digits. -/
inductive SpelledBytes : List UInt8 → List Char → Prop where
  | nil : SpelledBytes [] []
  | byte {b : UInt8} {bytes : List UInt8} {digits cs : List Char} (hb : WritesHex 2 b.toNat digits)
      (h : SpelledBytes bytes cs) : SpelledBytes (b :: bytes) ('\\' :: 'x' :: digits ++ cs)
  | joined {bytes : List UInt8} {cs : List Char} (h : SpelledBytes bytes cs) :
      SpelledBytes bytes ('\\' :: '\n' :: cs)

/-- The spellings of a character inside quotes. Four digits are enough for the characters up to
U+FFFF only. -/
inductive SpelledChar (quote : Char) : Char → List Char → Prop where
  | plain {c : Char} (hquote : c ≠ quote) (hslash : c ≠ '\\') (hbreak : c ≠ '\n') :
      SpelledChar quote c [c]
  | mnemonic {letter c : Char} (h : (letter, c) ∈ mnemonics) : SpelledChar quote c ['\\', letter]
  | escaped {c : Char} (hletter : c ∉ mnemonics.map Prod.fst) (hnumber : c ∉ numberLetters)
      (hbreak : c ≠ '\n') : SpelledChar quote c ['\\', c]
  | short {c : Char} {digits : List Char} (h : WritesHex 4 c.toNat digits) :
      SpelledChar quote c ('\\' :: 'u' :: digits)
  | long {c : Char} {digits : List Char} (h : WritesHex 8 c.toNat digits) :
      SpelledChar quote c ('\\' :: 'U' :: digits)
  | bytes {c : Char} {cs : List Char} (h : SpelledBytes (Text.Utf8.encodeChar c) cs) :
      SpelledChar quote c cs

/-- The spellings of a content inside quotes. -/
inductive Spelled (quote : Char) : List Char → List Char → Prop where
  | nil : Spelled quote [] []
  | char {c : Char} {content cs ds : List Char} (hc : SpelledChar quote c cs)
      (h : Spelled quote content ds) : Spelled quote (c :: content) (cs ++ ds)
  | joined {content cs : List Char} (h : Spelled quote content cs) :
      Spelled quote content ('\\' :: '\n' :: cs)

/-! ## What a piece of a string gives -/

/-- **A piece of a string gives bytes**: whatever follows, the scanner takes the whole piece,
without a fault, and goes on after it. -/
def Gives (quote : Char) (cs : List Char) (bytes : List UInt8) : Prop :=
  ∀ p rest, scanBody quote p (cs ++ rest) =
    let body := scanBody quote (p.advance cs) rest
    ⟨bytes ++ body.bytes, body.closed, cs.length + body.length, body.problems⟩

section Gives

variable {quote : Char} {cs ds : List Char} {bytes more : List UInt8}

theorem gives_nil : Gives quote [] [] := by
  intro p rest
  rw [List.nil_append, List.length_nil]
  dsimp only
  rw [List.nil_append, Nat.zero_add]
  rfl

/-- Texts one after another give their bytes one after another. -/
theorem Gives.append (hcs : Gives quote cs bytes) (hds : Gives quote ds more) :
    Gives quote (cs ++ ds) (bytes ++ more) := by
  intro p rest
  rw [List.append_assoc, hcs, hds, Position.advance_append]
  dsimp only
  rw [List.append_assoc, List.length_append, Nat.add_assoc]

/-- It is enough that the escape is right wherever it stands. -/
theorem gives_escape (hquote : quote ≠ '\\') {escape : List Char}
    (h : ∀ rest, Escape.scan (escape ++ rest) = ⟨bytes, none, escape.length⟩) :
    Gives quote ('\\' :: escape) bytes := by
  intro p rest
  rw [List.cons_append, scanBody_escape hquote p rest (h rest), List.length_cons]

/-- A character that means nothing special gives its own bytes. -/
theorem gives_plain {c : Char} (hquote : c ≠ quote) (hslash : c ≠ '\\') (hbreak : c ≠ '\n') :
    Gives quote [c] (Text.Utf8.encodeChar c) := by
  intro p rest
  rw [List.singleton_append, scanBody_plain hbreak hquote hslash, List.length_singleton]

/-- A line break behind a backslash gives nothing. -/
theorem gives_joined (hquote : quote ≠ '\\') : Gives quote ['\\', '\n'] [] :=
  gives_escape hquote fun _ => rfl

/-- A numeric escape takes the digits of its width and no more. -/
theorem WritesHex.numeric {width code : Nat} {digits : List Char}
    (h : WritesHex width code digits) (give : Nat → List UInt8 × Option Problem)
    (rest : List Char) :
    Escape.numeric width (digits ++ rest) give =
      ⟨(give code).1, (give code).2, digits.length + 1⟩ := by
  rw [← h.length, numeric_run h.digit rest give, h.value, Nat.add_comm]

theorem scalar_toNat (c : Char) : Escape.scalar c.toNat = (Text.Utf8.encodeChar c, none) := by
  have hvalid : c.toNat.isValidChar := c.valid
  rw [Escape.scalar, if_pos hvalid, Char.ofNat_toNat]

/-- A character that has no meaning of its own after a backslash stands for itself. -/
theorem scan_escaped {c : Char} (hletter : c ∉ mnemonics.map Prod.fst)
    (hnumber : c ∉ numberLetters) (hbreak : c ≠ '\n') (rest : List Char) :
    Escape.scan (c :: rest) = ⟨Text.Utf8.encodeChar c, none, 1⟩ := by
  simp only [mnemonics, numberLetters, List.map_cons, List.map_nil, List.mem_cons,
    List.not_mem_nil, or_false, not_or] at hletter hnumber
  obtain ⟨hn, ht, hr, ha, hb, hf, hv⟩ := hletter
  obtain ⟨hx, hu, hU⟩ := hnumber
  rw [Escape.scan.eq_6 c rest hbreak hx hu hU, Escape.mnemonic.eq_8 c hn ht hr ha hb hf hv]

theorem scan_mnemonic {letter c : Char} (h : (letter, c) ∈ mnemonics) (rest : List Char) :
    Escape.scan (letter :: rest) = ⟨Text.Utf8.encodeChar c, none, 1⟩ := by
  simp only [mnemonics, List.mem_cons, Prod.mk.injEq, List.not_mem_nil, or_false] at h
  rcases h with ⟨rfl, rfl⟩ | ⟨rfl, rfl⟩ | ⟨rfl, rfl⟩ | ⟨rfl, rfl⟩ | ⟨rfl, rfl⟩ | ⟨rfl, rfl⟩ |
    ⟨rfl, rfl⟩ <;> rfl

/-- **Every way to spell bytes gives these bytes.** -/
theorem SpelledBytes.gives (hquote : quote ≠ '\\') (h : SpelledBytes bytes cs) :
    Gives quote cs bytes := by
  induction h with
  | nil => exact gives_nil
  | @byte b bytes digits cs hb _ ih =>
    have hescape : Gives quote ('\\' :: 'x' :: digits) [b] := by
      refine gives_escape hquote fun rest => ?_
      rw [List.cons_append, Escape.scan, hb.numeric, Escape.byte, UInt8.ofNat_toNat,
        List.length_cons]
    exact hescape.append ih
  | joined _ ih => exact (gives_joined hquote).append ih

/-- Every spelling of a character gives its bytes. -/
theorem SpelledChar.gives (hquote : quote ≠ '\\') {c : Char} (h : SpelledChar quote c cs) :
    Gives quote cs (Text.Utf8.encodeChar c) := by
  cases h with
  | plain hne hslash hbreak => exact gives_plain hne hslash hbreak
  | mnemonic h => exact gives_escape hquote fun rest => scan_mnemonic h rest
  | escaped hletter hnumber hbreak =>
    exact gives_escape hquote fun rest => scan_escaped hletter hnumber hbreak rest
  | short h =>
    refine gives_escape hquote fun rest => ?_
    rw [List.cons_append, Escape.scan, h.numeric, scalar_toNat, List.length_cons]
  | long h =>
    refine gives_escape hquote fun rest => ?_
    rw [List.cons_append, Escape.scan, h.numeric, scalar_toNat, List.length_cons]
  | bytes h => exact h.gives hquote

/-- Every spelling of a content gives its bytes. -/
theorem Spelled.gives (hquote : quote ≠ '\\') {content : List Char}
    (h : Spelled quote content cs) : Gives quote cs (Text.Utf8.encode content) := by
  induction h with
  | nil => exact gives_nil
  | @char c content cs ds hc _ ih =>
    rw [Text.Utf8.encode, List.flatMap_cons]
    exact (hc.gives hquote).append ih
  | joined _ ih => exact (gives_joined hquote).append ih

end Gives

/-! ## Literals -/

/-- So the inside of a literal is its content, up to the closing quote. -/
theorem Spelled.scanBody {quote : Char} (hquote : quote = '"' ∨ quote = '\'')
    {content cs : List Char} (h : Spelled quote content cs) (p : Position) (rest : List Char) :
    Token.scanBody quote p (cs ++ quote :: rest) =
      ⟨Text.Utf8.encode content, true, cs.length + 1, []⟩ := by
  have hslash : quote ≠ '\\' := by rcases hquote with rfl | rfl <;> decide
  have hbreak : quote ≠ '\n' := by rcases hquote with rfl | rfl <;> decide
  rw [h.gives hslash, Token.scanBody, if_neg hbreak, if_pos rfl]
  dsimp only
  rw [List.append_nil]

theorem Spelled.lexeme {quote : Char} (hquote : quote = '"' ∨ quote = '\'')
    {content cs : List Char} (h : Spelled quote content cs) (p : Position) (rest : List Char) :
    Lexeme.scan p quote (cs ++ quote :: rest) =
      Lexeme.plain (.string content) (cs ++ [quote]).length := by
  have hstring : ∀ rest, Lexeme.scan p quote rest = Lexeme.string p quote rest := by
    rcases hquote with rfl | rfl <;> exact fun _ => rfl
  rw [hstring, Lexeme.string, h.scanBody hquote, Text.Utf8.decode?_encode, List.length_append]
  rfl

/-- **All spellings of a string agree.** However a content is spelled, and in whichever quotes, the
literal is one lexeme, which is the string of that content, has no fault and ends at the closing
quote: in any text the scan goes on after it, and by itself it is scanned as that one token. -/
theorem scan_spelled {quote : Char} (hquote : quote = '"' ∨ quote = '\'')
    {content cs : List Char} (h : Spelled quote content cs) :
    (∀ p rest, scanFrom p (quote :: (cs ++ quote :: rest)) =
      let more := scanFrom (p.advance (quote :: (cs ++ [quote]))) rest
      ⟨⟨.string content, p⟩ :: more.tokens, more.stop, more.problems⟩) ∧
    scan (String.ofList (quote :: (cs ++ [quote]))) =
      ⟨[⟨.string content, .start⟩], Position.start.advance (quote :: (cs ++ [quote])), []⟩ := by
  have hfrom : ∀ p rest, scanFrom p (quote :: (cs ++ quote :: rest)) =
      let more := scanFrom (p.advance (quote :: (cs ++ [quote]))) rest
      ⟨⟨.string content, p⟩ :: more.tokens, more.stop, more.problems⟩ := by
    intro p rest
    have hlexeme := h.lexeme hquote p rest
    rw [← List.singleton_append (l := rest), ← List.append_assoc] at hlexeme
    have hscan := scanFrom_lexeme hlexeme
    rw [List.cons_append, List.append_assoc, List.singleton_append] at hscan
    exact hscan
  refine ⟨hfrom, ?_⟩
  rw [scan, String.toList_ofList, hfrom, scanFrom_nil]

/-- A character byte by byte over a line break, one in four digits and one in eight, a letter for a
control, a digit right after an escape, an escaped quote, and one that stands for itself. -/
theorem scan_spelled_mixed :
    Spelled '\'' "é•😀\n1'\"".toList
        "\\xc3\\\n\\xA9\\u2022\\U0001f600\\n1\\'\"".toList ∧
      (scan "'\\xc3\\\n\\xA9\\u2022\\U0001f600\\n1\\'\"'").tokens =
        [⟨.string "é•😀\n1'\"".toList, ⟨1, 1⟩⟩] := by
  have hwrites : ∀ {width code digits}, digits.length = width →
      digits.all Text.isHexDigit = true → Text.ofHexDigits digits = code →
      WritesHex width code digits := fun hlength hdigits hvalue =>
    ⟨hlength, List.all_eq_true.mp hdigits, hvalue⟩
  have hfirst : WritesHex 2 (0xC3 : UInt8).toNat ['c', '3'] := hwrites rfl rfl rfl
  have hsecond : WritesHex 2 (0xA9 : UInt8).toNat ['A', '9'] := hwrites rfl rfl rfl
  have hbytes : SpelledChar '\'' 'é' "\\xc3\\\n\\xA9".toList :=
    .bytes (.byte hfirst (.joined (.byte hsecond .nil)))
  have hshort : SpelledChar '\'' '•' "\\u2022".toList := .short (hwrites rfl rfl rfl)
  have hlong : SpelledChar '\'' '😀' "\\U0001f600".toList := .long (hwrites rfl rfl rfl)
  have hbreak : SpelledChar '\'' '\n' "\\n".toList := .mnemonic (by decide)
  have hdigit : SpelledChar '\'' '1' "1".toList := .plain (by decide) (by decide) (by decide)
  have hquote : SpelledChar '\'' '\'' "\\'".toList := .escaped (by decide) (by decide) (by decide)
  have hother : SpelledChar '\'' '"' "\"".toList := .plain (by decide) (by decide) (by decide)
  have h : Spelled '\'' "é•😀\n1'\"".toList
      "\\xc3\\\n\\xA9\\u2022\\U0001f600\\n1\\'\"".toList :=
    .char hbytes (.char hshort (.char hlong (.char hbreak (.char hdigit (.char hquote
      (.char hother .nil))))))
  refine ⟨h, ?_⟩
  have hscan := (scan_spelled (.inr rfl) h).2
  exact congrArg Scan.tokens hscan

end DataLisp.Token
