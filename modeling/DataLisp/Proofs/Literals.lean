/-
The text of a literal says which literal it is.

Quoting writes one character after the other, so that it loses nothing is a matter of a single
character: it can be read off the front of whatever it stands before (`unquoteChar_quoteChar`).
A character that stands for itself is no backslash; after a backslash the letter says which
character is meant, or that its number follows; and the number ends at the closing brace, which is
no hexadecimal digit. So two texts that are quoted alike agree character by character
(`quote_inj`).

The text of a number is a numeral, which a scanner reads back as a whole (`ReadsBack`) and which
denotes the number again, so no two numbers share it (`ofInt64_text_inj`, `text_inj`). The words
for the infinities are no numerals. Only NaNs are written alike, and no numeral denotes one.

A literal is a single line: quoting writes a line break as an escape, and numbers have none.
-/
import DataLisp.Proofs.Overflow
import DataLisp.Text.Quoted

set_option autoImplicit false

namespace DataLisp

/-! ## Rows -/

/-- **Rows that are written alike are alike**, if that can be said of what stands at the front of
a row and of what follows it. -/
theorem map_eq_of_flatMap_eq {α β γ : Type} {write : α → List β} {f : α → γ} {as as' : List α}
    (hne : ∀ a, write a ≠ [])
    (hfront : ∀ a ∈ as, ∀ a' ∈ as', ∀ bs bs' : List α,
      write a ++ bs.flatMap write = write a' ++ bs'.flatMap write →
        f a = f a' ∧ bs.flatMap write = bs'.flatMap write)
    (h : as.flatMap write = as'.flatMap write) : as.map f = as'.map f := by
  induction as generalizing as' with
  | nil =>
    cases as' with
    | nil => rfl
    | cons a' as' => exact absurd (List.append_eq_nil_iff.mp h.symm).1 (hne a')
  | cons a as ih =>
    cases as' with
    | nil => exact absurd (List.append_eq_nil_iff.mp h).1 (hne a)
    | cons a' as' =>
      obtain ⟨hone, hrest⟩ := hfront a List.mem_cons_self a' List.mem_cons_self as as' h
      rw [List.map_cons, List.map_cons, hone, ih _ hrest]
      intro b hb b' hb'
      exact hfront b (List.mem_cons_of_mem a hb) b' (List.mem_cons_of_mem a' hb')

namespace Text

/-! ## Hexadecimal digits -/

theorem hexValue?_digitChar : ∀ n < 16, hexValue? n.digitChar = some n := by
  decide

/-- **Hexadecimal digits are read back** as the number they write. -/
theorem ofHexDigits_hexDigits (n : Nat) : ofHexDigits (hexDigits n) = n := by
  induction n using Nat.strong_induction_on with
  | _ n ih =>
    rw [hexDigits, Nat.toDigits_eq_if (by decide)]
    split
    · rename_i hn
      simp [ofHexDigits, hexValue?_digitChar n hn]
    -- the last digit is the remainder, and the others write the quotient
    · have hhigh := ih (n / 16) (by omega)
      rw [ofHexDigits, hexDigits] at hhigh
      rw [ofHexDigits, List.foldl_append, hhigh, List.foldl_cons, List.foldl_nil,
        hexValue?_digitChar (n % 16) (Nat.mod_lt _ (by decide)), Option.getD_some]
      omega

theorem isHexDigit_of_mem_hexDigits (n : Nat) : ∀ c ∈ hexDigits n, isHexDigit c = true := by
  have hdigit : ∀ m < 16, isHexDigit m.digitChar = true := by
    intro m hm
    rw [isHexDigit, hexValue?_digitChar m hm]
    rfl
  induction n using Nat.strong_induction_on with
  | _ n ih =>
    rw [hexDigits, Nat.toDigits_eq_if (by decide)]
    split
    · rename_i hn
      simpa using hdigit n hn
    · intro c hc
      rcases List.mem_append.mp hc with hc | hc
      · exact ih (n / 16) (by omega) c hc
      · rw [List.mem_singleton.mp hc]
        exact hdigit (n % 16) (Nat.mod_lt _ (by decide))

/-! ## One character -/

/-- The letters of the short escapes, and the characters they stand for. -/
def shortEscapes : List (Char × Char) :=
  [('0', '\x00'), ('t', '\t'), ('r', '\r'), ('n', '\n'), ('\\', '\\'), ('"', '"')]

/-- The quoted character at the front of a text, and what follows it. -/
def unquoteChar : List Char → Option (Char × List Char)
  | '\\' :: 'u' :: rest =>
    some (.ofNat (ofHexDigits (rest.tail.takeWhile isHexDigit)),
      (rest.tail.dropWhile isHexDigit).tail)
  | '\\' :: letter :: rest => (shortEscapes.lookup letter).map (·, rest)
  | c :: rest => some (c, rest)
  | [] => none

/-- **A quoted character is read off the front** of whatever it stands before. -/
theorem unquoteChar_quoteChar (c : Char) (rest : List Char) :
    unquoteChar (quoteChar c ++ rest) = some (c, rest) := by
  unfold quoteChar
  split
  · rfl
  · rfl
  · rfl
  · rfl
  · rfl
  · rfl
  · rename_i hslash _
    split
    · rw [List.singleton_append, unquoteChar]
      · exact fun _ h => absurd h hslash
      · exact fun _ _ h => absurd h hslash
    · have hstop : ∀ d, ('\x7d' :: rest).head? = some d → isHexDigit d = false := by
        rintro d ⟨⟩
        decide
      have hdigits := isHexDigit_of_mem_hexDigits c.toNat
      rw [show '\\' :: 'u' :: braced (hexDigits c.toNat) ++ rest =
        '\\' :: 'u' :: '\x7b' :: (hexDigits c.toNat ++ '\x7d' :: rest) by simp [braced]]
      rw [unquoteChar, List.tail_cons, takeWhile_run hdigits hstop, dropWhile_run hdigits hstop,
        ofHexDigits_hexDigits, Char.ofNat_toNat, List.tail_cons]

theorem newline_notMem_quoteChar (c : Char) : '\n' ∉ quoteChar c := by
  unfold quoteChar
  split
  · decide
  · decide
  · decide
  · decide
  · decide
  · decide
  · rename_i hbreak _ _
    split
    · simpa using Ne.symm hbreak
    · intro h
      have hdigit : '\n' ∈ hexDigits c.toNat := by simpa [braced] using h
      exact absurd (isHexDigit_of_mem_hexDigits _ _ hdigit) (by decide)

/-! ## Texts -/

theorem quoteChar_ne_nil (c : Char) : quoteChar c ≠ [] := by
  intro h
  have hread := unquoteChar_quoteChar c []
  rw [h] at hread
  cases hread

/-- Texts that are written alike character by character are the same. -/
theorem flatMap_quoteChar_inj {cs cs' : List Char}
    (h : cs.flatMap quoteChar = cs'.flatMap quoteChar) : cs = cs' := by
  have hmap : cs.map id = cs'.map id := by
    refine map_eq_of_flatMap_eq quoteChar_ne_nil ?_ h
    intro c _ c' _ ds ds' heq
    have hread := congrArg unquoteChar heq
    rw [unquoteChar_quoteChar, unquoteChar_quoteChar, Option.some.injEq, Prod.mk.injEq] at hread
    exact hread
  rwa [List.map_id, List.map_id] at hmap

/-- **No two texts are quoted alike.** -/
theorem quote_inj {s s' : String} (h : quote s = quote s') : s = s' := by
  have hchars := congrArg String.toList h
  rw [quote, quote, String.toList_ofList, String.toList_ofList] at hchars
  exact String.toList_inj.mp
    (flatMap_quoteChar_inj (List.append_cancel_right (List.cons.inj hchars).2))

/-- **A quoted text is a single line.** -/
theorem newline_notMem_quote (s : String) : '\n' ∉ (quote s).toList := by
  rw [quote, String.toList_ofList]
  simp only [List.cons_append, List.mem_cons, List.mem_append, List.mem_flatMap]
  rintro (h | ⟨c, -, hc⟩ | h)
  · exact absurd h (by decide)
  · exact newline_notMem_quoteChar c hc
  · exact absurd h (by decide)

end Text

/-! ## Numbers -/

namespace Numeral

/-- A numeral that is read back from its text as a whole. -/
def ReadsBack (n : Numeral) : Prop :=
  scan n.text.toList = (n, [])

theorem Proper.readsBack {n : Numeral} (hn : n.Proper) : n.ReadsBack := by
  rw [ReadsBack, text, String.toList_ofList, scan_chars_self hn]

theorem ReadsBack.text_inj {n m : Numeral} (hn : n.ReadsBack) (hm : m.ReadsBack)
    (h : n.text = m.text) : n = m := by
  rw [ReadsBack, h, hm] at hn
  exact (Prod.mk.inj hn).1.symm

/-- **No two integers are written alike.** -/
theorem ofInt64_text_inj {i j : Int64} (h : (ofInt64 i).text = (ofInt64 j).text) : i = j := by
  have hnumeral : ofInt64 i = ofInt64 j :=
    (proper_ofInt _).readsBack.text_inj (proper_ofInt _).readsBack h
  have hvalue := toInt64?_ofInt64 i
  rw [hnumeral, toInt64?_ofInt64] at hvalue
  exact (Option.some.inj hvalue).symm

/-- A numeral is a single line. -/
theorem Proper.newline_notMem {n : Numeral} (hn : n.Proper) : '\n' ∉ n.text.toList := by
  have hsign : ∀ sign, '\n' ∉ Sign.chars sign := by
    rintro (_ | _ | _) <;> decide
  have hrun : ∀ digits : List Char, (∀ c ∈ digits, c.isDigit = true) → '\n' ∉ digits :=
    fun digits hdigits h => absurd (hdigits _ h) (by decide)
  obtain ⟨sign, whole, fraction, exponent⟩ := n
  simp only [text, String.toList_ofList, chars, List.mem_append]
  rintro (((h | h) | h) | h)
  · exact hsign _ h
  · exact hrun _ hn.whole h
  · cases fraction with
    | none => cases h
    | some digits =>
      rcases List.mem_cons.mp h with h | h
      · exact absurd h (by decide)
      · exact hrun _ hn.fraction h
  · cases exponent with
    | none => cases h
    | some e =>
      simp only [exponentChars, Exponent.chars, List.mem_cons, List.mem_append] at h
      rcases h with h | h | h
      · exact absurd (hn.mark e rfl) (by rw [← h]; decide)
      · exact hsign _ h
      · exact hrun _ (hn.exponent e rfl) h

end Numeral

theorem Binary64.isNaN_of_isFinite {x : Binary64} (hx : x.isFinite = true) : x.isNaN = false :=
  decide_eq_false (Nat.lt_asymm (of_decide_eq_true hx))

namespace Notation

variable (f : Notation) {x y : Binary64}

theorem text_of_isFinite (hx : x.isFinite = true) : f.text x = (f.numeral x).text := by
  rw [text, if_neg (by simp [Binary64.isNaN_of_isFinite hx]), if_pos hx]

theorem text_infinity (negative : Bool) :
    f.text (.infinity negative) = if negative then "-inf" else "inf" := by
  cases negative <;> rfl

theorem readsBack_numeral (hx : x.isFinite = true) : (f.numeral x).ReadsBack :=
  (proper_numeral f hx).readsBack

/-- The words for the infinities are no numerals. -/
theorem text_ne_infinity (hx : x.isFinite = true) (negative : Bool) :
    f.text x ≠ f.text (.infinity negative) := by
  intro h
  -- scanning stops before the words
  have hword : ∀ negative : Bool,
      (Numeral.scan (if negative then "-inf" else "inf").toList).2 ≠ [] := by
    decide
  have hscan := readsBack_numeral f hx
  rw [text_of_isFinite f hx, text_infinity] at h
  rw [Numeral.ReadsBack, h] at hscan
  exact hword negative (congrArg Prod.snd hscan)

/-- **No two doubles are written alike**, as long as they are numbers. -/
theorem text_inj (hx : x.isNaN = false) (hy : y.isNaN = false) (h : f.text x = f.text y) :
    x = y := by
  have hcases : ∀ {z : Binary64}, z.isNaN = false →
      z.isFinite = true ∨ z = .infinity z.negative := fun hz =>
    Binary64.isFinite_or_eq_infinity (Nat.not_lt.mp (of_decide_eq_false hz))
  rcases hcases hx with hfinite | hinfinite
  · rcases hcases hy with hfinite' | hinfinite'
    · rw [text_of_isFinite f hfinite, text_of_isFinite f hfinite'] at h
      have hnumeral : f.numeral x = f.numeral y :=
        (readsBack_numeral f hfinite).text_inj (readsBack_numeral f hfinite') h
      rw [← toBinary64_numeral f hfinite, hnumeral, toBinary64_numeral f hfinite']
    · rw [hinfinite'] at h
      exact absurd h (text_ne_infinity f hfinite _)
  · rcases hcases hy with hfinite' | hinfinite'
    · rw [hinfinite] at h
      exact absurd h.symm (text_ne_infinity f hfinite' _)
    -- of two infinities the sign is written
    · rw [hinfinite, hinfinite', text_infinity, text_infinity] at h
      rw [hinfinite, hinfinite']
      revert h
      cases x.negative <;> cases y.negative <;> simp

/-- A double is a single line. -/
theorem newline_notMem_text (x : Binary64) : '\n' ∉ (f.text x).toList := by
  rw [text]
  split_ifs with hnumber hfinite
  · decide
  · exact (proper_numeral f hfinite).newline_notMem
  · decide
  · decide

end Notation

/-- What a numeral denotes is a number. -/
theorem Numeral.isNaN_toBinary64 (n : Numeral) : n.toBinary64.isNaN = false := by
  cases hx : n.toBinary64.isFinite with
  | true => exact Binary64.isNaN_of_isFinite hx
  | false =>
    rw [toBinary64, Binary64.ofDecimal_eq_infinity hx]
    rfl

end DataLisp
