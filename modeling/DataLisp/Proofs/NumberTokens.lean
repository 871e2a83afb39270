/-
Number tokens are exactly the numbers.

Wherever the scanner begins a lexeme with a digit, a sign or a point, it takes the longest start of
a number, and what it makes of this text depends on the grammar of number text alone: an integer, a
float, or the report of an invalid number (`scan_number_start`). For a whole text this is said of
the places at which lexemes begin (`starts`). Their positions increase, so a report belongs to the
lexeme at its position (`report_iff`); a fault inside a string has another wording. The text of a
number token is the text at its position (`standsAt_numeral`).

The parser is given numerals and never asks whether one can be read. That it need not is said with
readers that take the text of a number and may refuse it, one for integers of 64 bits and one for
doubles, which accept more than the scanner finds. A parser of scalars that reads the texts of
number tokens with them, and reports those that it cannot read, does on the tokens of any text what
the parser of scalars does (`scalarOfText_eq`): no float is refused, and an integer is refused
exactly if it is out of range.
-/
import DataLisp.Proofs.NumberGrammar
import DataLisp.Proofs.Positions

set_option autoImplicit false

namespace DataLisp

/-! ## Readers of number text -/

namespace Numeral

/-- Reads an integer of any size: at most a sign, then digits, at least one of them, and nothing
else. -/
def readInt? (cs : List Char) : Option Int :=
  let (sign, ds) := Sign.scan cs
  if ds ≠ [] ∧ ds.all Char.isDigit then
    let size : Nat := Nat.ofDigitChars 10 ds 0
    some (if sign = some .minus then -(size : Int) else size)
  else
    none

/-- Reads an integer of 64 bits. A text that writes none, or one that is out of range, is
refused. -/
def readInt64? (cs : List Char) : Option Int64 :=
  (readInt? cs).bind fun z =>
    if -2 ^ 63 ≤ z ∧ z < 2 ^ 63 then some (Int64.ofInt z) else none

/-- Reads a decimal without its sign. The text is cut at the first mark and, before it, at the first
point. There must be a digit on one side of the point, and an integer after a mark. -/
def readDecimal? (negative : Bool) (cs : List Char) : Option Binary64 :=
  let mantissa := cs.takeWhile (! Exponent.isMark ·)
  let whole := mantissa.takeWhile (· ≠ '.')
  let fraction := (mantissa.dropWhile (· ≠ '.')).drop 1
  let exponent? :=
    match cs.dropWhile (! Exponent.isMark ·) with
    | [] => some 0
    | _ :: rest => readInt? rest
  exponent?.bind fun exponent =>
    if whole ++ fraction ≠ [] ∧ (whole ++ fraction).all Char.isDigit then
      some (Binary64.ofDecimal negative (Nat.ofDigitChars 10 (whole ++ fraction) 0)
        (exponent - fraction.length))
    else
      none

/-- Reads one of the words for the doubles that no decimal denotes, in letters of either case. -/
def readWord? (negative : Bool) (cs : List Char) : Option Binary64 :=
  let word := String.ofList (cs.map Char.toLower)
  if word = "inf" ∨ word = "infinity" then some (Binary64.infinity negative)
  else if word = "nan" then
    some ⟨negative, Binary64.infinityMagnitude + exponentWeight / 2, by decide⟩
  else none

/-- Reads a double: at most a sign, and then a decimal or a word. -/
def readDouble? (cs : List Char) : Option Binary64 :=
  let (sign, rest) := Sign.scan cs
  let negative := sign = some .minus
  (readDecimal? negative rest).or (readWord? negative rest)

/-! ### What they read in numerals -/

theorem readInt?_run (sign : Option Sign) {ds : List Char} (hne : ds ≠ [])
    (hds : ∀ c ∈ ds, c.isDigit = true) :
    readInt? (Sign.chars sign ++ ds) =
      some (if sign = some .minus then -(Nat.ofDigitChars 10 ds 0 : Int)
        else Nat.ofDigitChars 10 ds 0) := by
  have hsign : Sign.scan (Sign.chars sign ++ ds) = (sign, ds) := by
    refine Sign.scan_chars sign fun _ c hc => ?_
    exact Sign.ofChar?_digit (hds c (List.mem_of_head? hc))
  rw [readInt?, hsign]
  exact if_pos ⟨hne, List.all_eq_true.mpr hds⟩

/-- The text of an integer is read as its value. -/
theorem readInt?_chars {n : Numeral} (hn : n.Proper) (h : n.isInteger = true) :
    readInt? n.chars = some n.toInt := by
  obtain ⟨sign, whole, fraction, exponent⟩ := n
  simp only [isInteger, Bool.and_eq_true, Bool.not_eq_true', List.isEmpty_eq_false_iff,
    Option.isNone_iff_eq_none] at h
  obtain ⟨⟨hwhole, rfl⟩, rfl⟩ := h
  rw [chars_eq, body, fractionChars, exponentChars, List.append_nil, List.append_nil,
    readInt?_run sign hwhole hn.whole]
  simp [toInt, negative, mantissa, digits]

theorem readInt64?_chars {n : Numeral} (hn : n.Proper) (h : n.isInteger = true) :
    readInt64? n.chars = n.toInt64? := by
  have hlow : Int64.minValue.toInt = -2 ^ 63 := by decide
  have hhigh : Int64.maxValue.toInt = 2 ^ 63 - 1 := by decide
  rw [readInt64?, readInt?_chars hn h, Option.bind_some, toInt64?, hlow, hhigh]
  simp only [Int.le_sub_one_iff]

/-- No digit is the mark of an exponent. -/
theorem not_isMark_of_isDigit {c : Char} (hc : c.isDigit = true) : Exponent.isMark c = false := by
  by_contra hmark
  rw [(not_digit_of_isMark (Bool.eq_true_of_not_eq_false hmark)).1] at hc
  cases hc

/-- An exponent is read as the integer that follows its mark. -/
theorem readInt?_exponent {e : Exponent} (hne : e.digits ≠ [])
    (hdigits : ∀ c ∈ e.digits, c.isDigit = true) :
    readInt? (Sign.chars e.sign ++ e.digits) = some e.toInt :=
  readInt?_run e.sign hne hdigits

/-- What a float writes after its sign is cut where its parts begin. -/
theorem readDecimal?_body {n : Numeral} (hn : n.Proper) (h : n.isFloat = true) (negative : Bool) :
    readDecimal? negative n.body = some (Binary64.ofDecimal negative n.mantissa n.scale) := by
  obtain ⟨hdigits, hexponent⟩ := digits_of_isFloat h
  obtain ⟨sign, whole, fraction, exponent⟩ := n
  have hmantissa : ∀ c ∈ whole ++ fractionChars fraction, (! Exponent.isMark c) = true := by
    intro c hc
    rw [Bool.not_eq_true']
    rcases List.mem_append.mp hc with hc | hc
    · exact not_isMark_of_isDigit (hn.whole c hc)
    · cases fraction with
      | none => cases hc
      | some ds =>
        rcases List.mem_cons.mp hc with rfl | hc
        · rfl
        · exact not_isMark_of_isDigit (hn.fraction c hc)
  have hmark : ∀ c, (exponentChars exponent).head? = some c → (! Exponent.isMark c) = false := by
    intro c hc
    cases exponent with
    | none => cases hc
    | some e =>
      cases hc
      rw [hn.mark e rfl, Bool.not_true]
  have hwhole : ∀ c ∈ whole, decide (c ≠ '.') = true := by
    rintro c hc
    refine decide_eq_true ?_
    rintro rfl
    exact absurd (hn.whole _ hc) (by decide)
  have hpoint : ∀ c, (fractionChars fraction).head? = some c → decide (c ≠ '.') = false := by
    intro c hc
    cases fraction with
    | none => cases hc
    | some ds => cases hc; rfl
  have hfraction : (fractionChars fraction).drop 1 = fraction.getD [] := by cases fraction <;> rfl
  have hall : (whole ++ fraction.getD []).all Char.isDigit = true := by
    rw [List.all_append, List.all_eq_true.mpr hn.whole, List.all_eq_true.mpr hn.fraction]
    rfl
  rw [readDecimal?, body, ← List.append_assoc]
  simp only [takeWhile_run hmantissa hmark, dropWhile_run hmantissa hmark,
    takeWhile_run hwhole hpoint, dropWhile_run hwhole hpoint, hfraction]
  cases exponent with
  | none => exact if_pos ⟨hdigits, hall⟩
  | some e =>
    have hread := readInt?_exponent (hexponent e rfl) (hn.exponent e rfl)
    simp only [exponentChars, Exponent.chars, hread, Option.bind_some]
    exact if_pos ⟨hdigits, hall⟩

/-- **The text of a float is read**, and as the double that the numeral denotes. -/
theorem readDouble?_chars {n : Numeral} (hn : n.Proper) (h : n.isFloat = true) :
    readDouble? n.chars = some n.toBinary64 := by
  have hsign := sign_scan_chars hn (.inr rfl)
  rw [List.append_nil, List.append_nil] at hsign
  rw [readDouble?, hsign]
  dsimp only
  rw [readDecimal?_body hn h]
  rfl

/-- The reader knows more texts than the scanner finds, but not every one. -/
example : readDouble? "-Inf".toList = some (.infinity true) ∧ readDouble? ".e5".toList = none := by
  decide

end Numeral

/-! ## Scalars from their texts -/

namespace Tree

open DataLisp.Tree.Parser

/-- Notes at the next token that the text of a float cannot be read. -/
def reportFloat (n : Numeral) : Parser Unit := do
  let p ← position
  fun _ tokens => ⟨((), tokens), [.error p ("invalid float '" ++ n.text ++ "'")]⟩

/-- A scalar whose numbers are read from the texts of their tokens. -/
def scalarOfText : Parser Tree := do
  match ← peek with
  | some (.integer n) =>
    match Numeral.readInt64? n.chars with
    | some i =>
      skip
      return .integer i
    | none =>
      report (.outOfRange n)
      skip
      return .invalid
  | some (.float n) =>
    match Numeral.readDouble? n.chars with
    | some x =>
      skip
      return .float x
    | none =>
      reportFloat n
      skip
      return .invalid
  | _ => scalar

variable {n : Numeral} (stop p : Position) (rest : List PlacedToken)

/-- An integer that can be read is taken. -/
theorem scalarOfText_integer {i : Int64} (h : Numeral.readInt64? n.chars = some i) :
    scalarOfText stop (⟨.integer n, p⟩ :: rest) = ⟨(.integer i, rest), []⟩ := by
  unfold scalarOfText
  refine bind_run_quiet (peek_apply stop _) ?_
  simp only [List.head?_cons, Option.map_some, h]
  rfl

/-- An integer that cannot be read is refused. -/
theorem scalarOfText_refused (h : Numeral.readInt64? n.chars = none) :
    scalarOfText stop (⟨.integer n, p⟩ :: rest) =
      ⟨(.invalid, rest), [(Problem.outOfRange n).report p]⟩ := by
  unfold scalarOfText
  refine bind_run_quiet (peek_apply stop _) ?_
  simp only [List.head?_cons, Option.map_some, h]
  exact bind_run (report_apply stop _ _) rfl

/-- A float that can be read is taken. -/
theorem scalarOfText_float {x : Binary64} (h : Numeral.readDouble? n.chars = some x) :
    scalarOfText stop (⟨.float n, p⟩ :: rest) = ⟨(.float x, rest), []⟩ := by
  unfold scalarOfText
  refine bind_run_quiet (peek_apply stop _) ?_
  simp only [List.head?_cons, Option.map_some, h]
  rfl

/-- **The texts of proper tokens are read as their numerals.** -/
theorem scalarOfText_eq {t : PlacedToken} (ht : t.token.Proper) :
    scalarOfText stop (t :: rest) = scalar stop (t :: rest) := by
  obtain ⟨token, p⟩ := t
  cases token with
  | integer n =>
    have hread := Numeral.readInt64?_chars ht.1 ht.2
    cases hi : n.toInt64? with
    | some i => rw [scalarOfText_integer stop p rest (hread.trans hi), scalar_run (.integer hi) p]
    | none =>
      rw [scalarOfText_refused stop p rest (hread.trans hi)]
      unfold scalar
      refine (bind_run_quiet (peek_apply stop _) ?_).symm
      simp only [List.head?_cons, Option.map_some, hi]
      refine bind_run (report_apply stop _ _) ?_
      rfl
  | float n => exact scalarOfText_float stop p rest (Numeral.readDouble?_chars ht.1 ht.2)
  | _ => rfl

end Tree

/-! ## Reports of invalid numbers -/

namespace Token

/-- A message that calls a number invalid belongs to that fault. -/
theorem Problem.eq_of_message {problem : Problem} {text : List Char}
    (h : problem.message = (invalidNumber text).message) : problem = invalidNumber text := by
  cases problem with
  | invalidNumber other =>
    have hquoted := (String.append_left_inj _).mp h
    rw [String.ofList_injective ((String.append_right_inj _).mp hquoted)]
  | _ =>
    -- the others are worded otherwise within the first few characters
    have hfirst := congrArg (fun s : String => s.toList.take 9) h
    dsimp only [message] at hfirst
    simp at hfirst

theorem Problem.eq_of_report {problem : Problem} {text : List Char} {p q : Position}
    (h : (invalidNumber text).report q = problem.report p) :
    q = p ∧ problem = invalidNumber text :=
  ⟨congrArg Diagnostic.position h, eq_of_message (congrArg Diagnostic.message h).symm⟩

namespace Escape

theorem numeric_not_number {width : Nat} {rest : List Char}
    {give : Nat → List UInt8 × Option Problem}
    (hgive : ∀ code text, (give code).2 ≠ some (.invalidNumber text)) (text : List Char) :
    (numeric width rest give).problem ≠ some (.invalidNumber text) := by
  unfold numeric
  dsimp only
  split
  · exact hgive _ text
  · rintro ⟨⟩

/-- No escape is an invalid number. -/
theorem scan_not_number (cs text : List Char) :
    (scan cs).problem ≠ some (.invalidNumber text) := by
  have hbyte : ∀ code text, (byte code).2 ≠ some (.invalidNumber text) := by
    rintro code text ⟨⟩
  have hscalar : ∀ code text, (scalar code).2 ≠ some (.invalidNumber text) := by
    intro code text
    unfold scalar
    split <;> rintro ⟨⟩
  unfold scan
  split
  case h_3 | h_4 | h_5 => exact numeric_not_number (by assumption) text
  all_goals rintro ⟨⟩

end Escape

/-- Nor is one reported inside a string. -/
theorem scanBody_not_number (quote : Char) (p : Position) (cs text : List Char) (q : Position) :
    (Problem.invalidNumber text).report q ∉ (scanBody quote p cs).problems := by
  induction p, cs using scanBody.induct quote with
  | case1 p => simp [scanBody]
  | case2 p rest => simp [scanBody]
  | case3 p rest hbreak => simp [scanBody, hbreak]
  | case4 p rest e hbreak hquote inside ih =>
    intro hd
    rw [scanBody_backslash hquote] at hd
    simp only [List.mem_append, Option.mem_toList, Option.map_eq_some_iff] at hd
    rcases hd with ⟨problem, hproblem, hreport⟩ | hd
    · obtain ⟨-, rfl⟩ := Problem.eq_of_report hreport.symm
      exact Escape.scan_not_number rest text hproblem
    · exact ih hd
  | case5 p c rest hbreak hquote hescape ih =>
    intro hd
    rw [scanBody, if_neg hbreak, if_neg hquote, if_neg hescape] at hd
    exact ih hd

/-- Numbers among the tokens. -/
def isNumber : Token → Bool
  | integer _ | float _ => true
  | _ => false

theorem isNumber_ofWord (word : List Char) : (ofWord word).isNumber = false := by
  unfold ofWord
  split_ifs <;> rfl

namespace Lexeme

/-- **An invalid number is reported where its lexeme begins.** -/
theorem scan_report {p q : Position} {c : Char} {rest text : List Char} :
    (Problem.invalidNumber text).report q ∈ (scan p c rest).problems → q = p := by
  apply scan_cases (P := fun lexeme =>
    (Problem.invalidNumber text).report q ∈ lexeme.problems → q = p)
  case plain => exact fun _ _ _ h => nomatch h
  case skip => exact fun _ h => nomatch h
  case fault => exact fun _ _ h => (Problem.eq_of_report (List.mem_singleton.mp h)).1
  case string =>
    intro h
    rcases string_problems h with h | ⟨problem, h⟩
    · exact absurd h (scanBody_not_number c (p.next c) rest text q)
    · exact (Problem.eq_of_report h).1

/-! ## Lexemes that begin as numbers -/

/-- A character with which a number can start is the start of a number. -/
theorem singleton_mem_run {c : Char} (hc : isNumberStart c = true) :
    [c] ∈ Numeral.Grammar.run := by
  simp only [isNumberStart, Bool.or_eq_true, decide_eq_true_eq] at hc
  rcases hc with ((hdigit | rfl) | rfl) | rfl
  · have hn : (Numeral.mk none [c] none none).Proper := ⟨by simpa, by simp, by simp, by simp⟩
    exact hn.chars_mem_run
  · have hn : (Numeral.mk (some .plus) [] none none).Proper := ⟨by simp, by simp, by simp, by simp⟩
    exact hn.chars_mem_run
  · have hn : (Numeral.mk (some .minus) [] none none).Proper := ⟨by simp, by simp, by simp, by simp⟩
    exact hn.chars_mem_run
  · have hn : (Numeral.mk none [] (some []) none).Proper := ⟨by simp, by simp, by simp, by simp⟩
    exact hn.chars_mem_run

/-- **What a number start becomes.** The lexeme is the longest start of a number. It is an integer
or a float if that is the text of one, and else it is reported and skipped. -/
theorem scan_number_start {c : Char} (hc : isNumberStart c = true) (p : Position)
    (rest : List Char) : ∃ n : Numeral, Numeral.IsLongest Numeral.Grammar.run (c :: rest) n.chars ∧
      (scan p c rest).length + 1 = n.chars.length ∧
      (n.chars ∈ Numeral.Grammar.integer → (scan p c rest).token = some (.integer n)) ∧
      (n.chars ∈ Numeral.Grammar.float → (scan p c rest).token = some (.float n)) ∧
      ∀ other, (Problem.invalidNumber other).report p ∈ (scan p c rest).problems ↔
        other = n.chars ∧ n.chars ∉ Numeral.Grammar.integer ∧ n.chars ∉ Numeral.Grammar.float := by
  have hlongest := Numeral.scan_longest (c :: rest)
  have hproper := proper_numeral_scan (c :: rest)
  rw [scan_number hc, number]
  generalize (Numeral.scan (c :: rest)).1 = n at hlongest hproper ⊢
  have hlength : n.chars.length - 1 + 1 = n.chars.length :=
    Nat.sub_add_cancel (hlongest.longest [c] (singleton_mem_run hc) ⟨rest, rfl⟩)
  refine ⟨n, hlongest, ?_⟩
  rw [hproper.chars_mem_integer_iff, hproper.chars_mem_float_iff]
  split
  · rename_i hinteger
    refine ⟨hlength, fun _ => rfl, fun hfloat => ?_, fun other => ?_⟩
    · rw [Numeral.not_isFloat_of_isInteger hinteger] at hfloat
      cases hfloat
    · simp [plain, hinteger]
  split
  · rename_i hinteger hfloat
    exact ⟨hlength, fun h => absurd h hinteger, fun _ => rfl, fun other => by simp [plain, hfloat]⟩
  · rename_i hinteger hfloat
    refine ⟨hlength, fun h => absurd h hinteger, fun h => absurd h hfloat, fun other => ?_⟩
    refine ⟨fun h => ?_, ?_⟩
    · obtain ⟨-, hnumber⟩ := Problem.eq_of_report (List.mem_singleton.mp h)
      exact ⟨(Problem.invalidNumber.inj hnumber).symm, hinteger, hfloat⟩
    · rintro ⟨rfl, -, -⟩
      exact List.mem_singleton_self _

/-- Not a number, whatever else it may be. -/
def NotNumber (lexeme : Lexeme) : Prop :=
  ∀ t, lexeme.token = some t → t.isNumber = false

theorem notNumber_plain {t : Token} (ht : t.isNumber = false) (length : Nat) :
    (plain t length).NotNumber := by
  rintro _ ⟨⟩
  exact ht

theorem notNumber_skip (length : Nat) : (skip length).NotNumber := fun _ => nofun

theorem notNumber_fault (p : Position) (length : Nat) (problem : Problem) :
    (fault p length problem).NotNumber := fun _ => nofun

theorem notNumber_string (p : Position) (quote : Char) (rest : List Char) :
    (string p quote rest).NotNumber := by
  unfold string
  dsimp only
  split
  · rintro _ ⟨⟩
    rfl
  · rintro _ ⟨⟩
    rfl

/-- **Only a number start becomes a number.** -/
theorem notNumber_scan {c : Char} (hc : isNumberStart c ≠ true) (p : Position)
    (rest : List Char) : (scan p c rest).NotNumber := by
  have hmark : ∀ {t : Token}, t.isNumber = false → (plain t 0).NotNumber :=
    fun ht => notNumber_plain ht 0
  unfold scan
  refine iteInduction (fun _ => notNumber_skip _) fun _ => ?_
  refine iteInduction (fun _ => notNumber_skip _) fun _ => ?_
  refine iteInduction (fun _ => hmark rfl) fun _ => iteInduction (fun _ => hmark rfl) fun _ => ?_
  refine iteInduction (fun _ => hmark rfl) fun _ => iteInduction (fun _ => hmark rfl) fun _ => ?_
  refine iteInduction (fun _ => hmark rfl) fun _ => iteInduction (fun _ => hmark rfl) fun _ => ?_
  refine iteInduction (fun _ => ?_) fun _ => ?_
  · exact iteInduction (fun _ => notNumber_plain rfl _) fun _ => notNumber_fault _ _ _
  refine iteInduction (fun _ => notNumber_string p c rest) fun _ => ?_
  refine iteInduction (fun h => absurd h hc) fun _ => ?_
  exact iteInduction (fun _ => notNumber_plain (isNumber_ofWord _) _) fun _ => notNumber_fault _ _ _

/-- The numeral of a number token is what the scanner reads there. -/
theorem numeral_of_token {p : Position} {c : Char} {rest : List Char} {n : Numeral}
    (h : (scan p c rest).token = some (.integer n) ∨ (scan p c rest).token = some (.float n)) :
    n = (Numeral.scan (c :: rest)).1 := by
  have hc : isNumberStart c = true := by
    by_contra hc
    rcases h with h | h
    · exact Bool.noConfusion (notNumber_scan hc p rest _ h)
    · exact Bool.noConfusion (notNumber_scan hc p rest _ h)
  rw [scan_number hc, number] at h
  split at h
  · rcases h with ⟨⟨⟩⟩ | ⟨⟨⟩⟩
    rfl
  split at h
  · rcases h with ⟨⟨⟩⟩ | ⟨⟨⟩⟩
    rfl
  · rcases h with ⟨⟨⟩⟩ | ⟨⟨⟩⟩

end Lexeme

/-! ## Number tokens -/

/-- No two lexemes begin at one position. -/
theorem start_unique {text : String} {s s' : Start} (hs : s ∈ starts text) (hs' : s' ∈ starts text)
    (h : s.position = s'.position) : s = s' := by
  have hnodup : ((starts text).map Start.position).Nodup := by
    refine List.pairwise_map.mpr ((startsFrom_increasing .start text.toList).imp ?_)
    intro s s' hprecedes heq
    rw [heq] at hprecedes
    exact hprecedes (by simp [Position.le])
  exact List.inj_on_of_nodup_map hnodup hs hs' h

/-- **A report belongs to the lexeme at its position.** -/
theorem report_iff {text : String} {s : Start} (hs : s ∈ starts text) (other : List Char) :
    (Problem.invalidNumber other).report s.position ∈ (scan text).problems ↔
      (Problem.invalidNumber other).report s.position ∈ s.lexeme.problems := by
  rw [scan, (scanFrom_starts .start text.toList).2]
  refine ⟨fun h => ?_, fun h => List.mem_flatMap.mpr ⟨s, hs, h⟩⟩
  obtain ⟨s', hs', h⟩ := List.mem_flatMap.mp h
  obtain rfl := start_unique hs hs' (Lexeme.scan_report h)
  exact h

/-- The token of a lexeme is a token of the text. -/
theorem token_mem {text : String} {s : Start} (hs : s ∈ starts text) {t : Token}
    (ht : s.lexeme.token = some t) : ⟨t, s.position⟩ ∈ (scan text).tokens := by
  rw [scan, (scanFrom_starts .start text.toList).1]
  exact List.mem_filterMap.mpr ⟨s, hs, Start.token?_eq_some_iff.mpr ⟨rfl, ht⟩⟩

/-- Text that stands at a position of a document. -/
def StandsAt (text : String) (p : Position) (word : List Char) : Prop :=
  ∃ before rest, text.toList = before ++ word ++ rest ∧ p = Position.after before

theorem standsAt_of_placed {text : String} {p : Position} {before cs word : List Char}
    (htext : text.toList = before ++ cs) (hp : p = Position.start.advance before)
    (hword : word <+: cs) : StandsAt text p word := by
  obtain ⟨rest, rfl⟩ := hword
  refine ⟨before, rest, ?_, hp.trans (Position.start_advance before)⟩
  rw [htext, List.append_assoc]

/-- **The text of a number token** is the text at its position. -/
theorem standsAt_numeral {text : String} {t : PlacedToken} (ht : t ∈ (scan text).tokens)
    {n : Numeral} (hn : t.token = .integer n ∨ t.token = .float n) :
    StandsAt text t.position n.chars := by
  obtain ⟨before, c, rest, htext, hposition, htoken⟩ :=
    scanFrom_placed .start text.toList t ht
  have hnumeral : n = (Numeral.scan (c :: rest)).1 :=
    Lexeme.numeral_of_token (hn.imp (fun h => htoken.trans (congrArg some h))
      fun h => htoken.trans (congrArg some h))
  rw [hnumeral]
  exact standsAt_of_placed htext hposition (Numeral.scan_longest _).starts

/-- **Number tokens are exactly the numbers.** The text of an integer token is an integer, and it
is read: as a scalar if it is in range, and else it is refused. The text of a float token is a
float, and is always read. So the parser of scalars loses nothing by never asking. And where a
lexeme starts with a digit, a sign or a point, it is the longest start of a number there, which is
reported as an invalid number exactly if it is neither an integer nor a float. -/
theorem numbers_exact (text : String) :
    (∀ t ∈ (scan text).tokens, ∀ n, t.token = .integer n →
      n.chars ∈ Numeral.Grammar.integer ∧ StandsAt text t.position n.chars ∧
      ∃ z, Numeral.readInt? n.chars = some z ∧ ∀ stop rest,
        Tree.scalarOfText stop (t :: rest) =
          if -2 ^ 63 ≤ z ∧ z < 2 ^ 63 then ⟨(.integer (Int64.ofInt z), rest), []⟩
          else ⟨(.invalid, rest), [(Tree.Problem.outOfRange n).report t.position]⟩) ∧
    (∀ t ∈ (scan text).tokens, ∀ n, t.token = .float n →
      n.chars ∈ Numeral.Grammar.float ∧ StandsAt text t.position n.chars ∧
      ∃ x, Numeral.readDouble? n.chars = some x ∧ ∀ stop rest,
        Tree.scalarOfText stop (t :: rest) = ⟨(.float x, rest), []⟩) ∧
    (∀ t ∈ (scan text).tokens, ∀ stop rest,
      Tree.scalarOfText stop (t :: rest) = Tree.scalar stop (t :: rest)) ∧
    ∀ s ∈ starts text, Lexeme.isNumberStart s.first = true →
      ∃ run, Numeral.IsLongest Numeral.Grammar.run (s.first :: s.rest) run ∧
        StandsAt text s.position run ∧ s.lexeme.length + 1 = run.length ∧
        (run ∈ Numeral.Grammar.integer →
          ∃ n : Numeral, n.chars = run ∧ ⟨.integer n, s.position⟩ ∈ (scan text).tokens) ∧
        (run ∈ Numeral.Grammar.float →
          ∃ n : Numeral, n.chars = run ∧ ⟨.float n, s.position⟩ ∈ (scan text).tokens) ∧
        ∀ other, (Problem.invalidNumber other).report s.position ∈ (scan text).problems ↔
          other = run ∧ run ∉ Numeral.Grammar.integer ∧ run ∉ Numeral.Grammar.float := by
  obtain ⟨hproper, -⟩ := scan_sound text
  refine ⟨?_, ?_, fun t ht stop rest => Tree.scalarOfText_eq stop rest (hproper t ht), ?_⟩
  · rintro ⟨token, p⟩ ht n rfl
    obtain ⟨hn, hinteger⟩ := hproper _ ht
    have hread := Numeral.readInt?_chars hn hinteger
    refine ⟨hn.chars_mem_integer_iff.mpr hinteger, standsAt_numeral ht (.inl rfl), n.toInt, hread,
      fun stop rest => ?_⟩
    have hread64 : Numeral.readInt64? n.chars =
        if -2 ^ 63 ≤ n.toInt ∧ n.toInt < 2 ^ 63 then some (Int64.ofInt n.toInt) else none := by
      rw [Numeral.readInt64?, hread, Option.bind_some]
    split at hread64
    · exact (Tree.scalarOfText_integer stop p rest hread64).trans (if_pos ‹_›).symm
    · exact (Tree.scalarOfText_refused stop p rest hread64).trans (if_neg ‹_›).symm
  · rintro ⟨token, p⟩ ht n rfl
    obtain ⟨hn, hfloat⟩ := hproper _ ht
    have hread := Numeral.readDouble?_chars hn hfloat
    exact ⟨hn.chars_mem_float_iff.mpr hfloat, standsAt_numeral ht (.inr rfl), n.toBinary64, hread,
      fun stop rest => Tree.scalarOfText_float stop p rest hread⟩
  · intro s hs hstart
    obtain ⟨n, hlongest, hlength, hinteger, hfloat, hreport⟩ :=
      Lexeme.scan_number_start hstart s.position s.rest
    obtain ⟨before, htext, hposition⟩ := startsFrom_placed .start text.toList s hs
    refine ⟨n.chars, hlongest, standsAt_of_placed htext hposition hlongest.starts, hlength,
      fun h => ⟨n, rfl, token_mem hs (hinteger h)⟩, fun h => ⟨n, rfl, token_mem hs (hfloat h)⟩,
      fun other => ?_⟩
    exact (report_iff hs other).trans (hreport other)

end Token

end DataLisp
