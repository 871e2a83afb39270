/-
Numerals are read as they are written, and denote what they were written for.

The scanner of a numeral takes each part as far as it goes. Whether it finds the parts
that were written is therefore a question about the characters at which one part ends
and the next begins: a run of digits ends before the point, the mark or whatever
follows the numeral, and a numeral without a sign does not begin with one. `Boundary`
says what may follow, and `scan_chars` puts the parts together.

What a numeral denotes is a decimal. The layouts of a double move its point and add or
drop zeros, so the digits and the scale change while the value stays. By the results on
rounding this is enough for the double to come back, whichever layout was chosen.
-/
import Mathlib.Data.List.TakeWhile
import DataLisp.Binary64.Notation
import DataLisp.Proofs.Rounding

set_option autoImplicit false

namespace DataLisp

/-! ## Runs -/

section Runs

variable {α : Type} {p : α → Bool} {run run' rest rest' : List α}

/-- Everything in a class, and nothing of that class at the start of what follows: the
longest run of the class is exactly the first part. -/
theorem takeWhile_run (hrun : ∀ a ∈ run, p a = true)
    (hrest : ∀ a, rest.head? = some a → p a = false) : (run ++ rest).takeWhile p = run := by
  rw [List.takeWhile_append_of_pos hrun]
  cases rest with
  | nil => simp
  | cons c rest => simp [hrest c rfl]

theorem dropWhile_run (hrun : ∀ a ∈ run, p a = true)
    (hrest : ∀ a, rest.head? = some a → p a = false) : (run ++ rest).dropWhile p = rest := by
  rw [List.dropWhile_append_of_pos hrun]
  cases rest with
  | nil => simp
  | cons c rest => simp [hrest c rfl]

/-- So a row can be parted in one way only into such a run and what follows it. -/
theorem run_append_inj (hrun : ∀ a ∈ run, p a = true) (hrun' : ∀ a ∈ run', p a = true)
    (hrest : ∀ a, rest.head? = some a → p a = false)
    (hrest' : ∀ a, rest'.head? = some a → p a = false) (h : run ++ rest = run' ++ rest') :
    run = run' ∧ rest = rest' := by
  constructor
  · rw [← takeWhile_run hrun hrest, h, takeWhile_run hrun' hrest']
  · rw [← dropWhile_run hrun hrest, h, dropWhile_run hrun' hrest']

end Runs

theorem Sign.ofChar?_digit {c : Char} (hc : c.isDigit = true) : Sign.ofChar? c = none := by
  unfold Sign.ofChar?
  split
  · exact absurd hc (by decide)
  · exact absurd hc (by decide)
  · rfl

/-- A sign that is written is found, and where none is written none is found. -/
theorem Sign.scan_chars (sign : Option Sign) {rest : List Char}
    (hrest : sign = none → ∀ c, rest.head? = some c → Sign.ofChar? c = none) :
    Sign.scan (Sign.chars sign ++ rest) = (sign, rest) := by
  match sign with
  | some .plus => rfl
  | some .minus => rfl
  | none =>
    cases rest with
    | nil => rfl
    | cons c rest =>
      have hc : Sign.ofChar? c = none := hrest rfl c rfl
      simp [Sign.chars, Sign.scan, hc]

namespace Numeral

/-- The parts of a numeral are what a scanner can find: runs of digits, and an exponent
introduced by a mark. -/
structure Proper (n : Numeral) : Prop where
  whole : ∀ c ∈ n.whole, c.isDigit = true
  fraction : ∀ c ∈ n.fraction.getD [], c.isDigit = true
  mark : ∀ e, n.exponent = some e → Exponent.isMark e.mark = true
  exponent : ∀ e, n.exponent = some e → ∀ c ∈ e.digits, c.isDigit = true

/-- What may follow a numeral: nothing that could be a part of it. -/
def Boundary (rest : List Char) : Prop :=
  ∀ c, rest.head? = some c → c.isDigit = false ∧ c ≠ '.' ∧ Exponent.isMark c = false

theorem exponent_scan_chars {exponent : Option Exponent} {rest : List Char}
    (hmark : ∀ e, exponent = some e → Exponent.isMark e.mark = true)
    (hdigits : ∀ e, exponent = some e →
      (e.digits ≠ [] ∨ rest = []) ∧ ∀ c ∈ e.digits, c.isDigit = true)
    (hrest : Boundary rest) :
    Exponent.scan (exponentChars exponent ++ rest) = (exponent, rest) := by
  match exponent with
  | none =>
    cases rest with
    | nil => rfl
    | cons c rest =>
      have hc : Exponent.isMark c = false := (hrest c rfl).2.2
      simp [exponentChars, Exponent.scan, hc]
  | some ⟨mark, sign, digits⟩ =>
    obtain ⟨hne, hall⟩ := hdigits _ rfl
    have hsign : Sign.scan (Sign.chars sign ++ (digits ++ rest)) = (sign, digits ++ rest) := by
      apply Sign.scan_chars
      intro _ c hc
      -- a sign after the exponent would be taken for its own if it had no digits
      cases digits with
      | nil => rw [hne.resolve_left (by simp)] at hc; cases hc
      | cons d ds =>
        rw [List.cons_append, List.head?_cons, Option.some.injEq] at hc
        exact Sign.ofChar?_digit (hall c (by simp [hc]))
    have hstop : ∀ c, rest.head? = some c → c.isDigit = false := fun c hc => (hrest c hc).1
    simp only [exponentChars, Exponent.chars, List.cons_append, List.append_assoc, Exponent.scan,
      hmark _ rfl, if_true, hsign, takeWhile_run hall hstop, dropWhile_run hall hstop]

theorem scanFraction_chars {fraction : Option (List Char)} {rest : List Char}
    (hdigits : ∀ c ∈ fraction.getD [], c.isDigit = true)
    (hrest : ∀ c, rest.head? = some c → c.isDigit = false ∧ c ≠ '.') :
    scanFraction (fractionChars fraction ++ rest) = (fraction, rest) := by
  match fraction with
  | none =>
    cases rest with
    | nil => rfl
    | cons c rest =>
      have hc : c ≠ '.' := (hrest c rfl).2
      rw [fractionChars, List.nil_append, scanFraction]
      intro _ hpoint
      exact hc (List.cons.inj hpoint).1
  | some digits =>
    have hall : ∀ c ∈ digits, c.isDigit = true := hdigits
    have hstop : ∀ c, rest.head? = some c → c.isDigit = false := fun c hc => (hrest c hc).1
    simp only [fractionChars, List.cons_append, scanFraction, takeWhile_run hall hstop,
      dropWhile_run hall hstop]

theorem not_digit_of_isMark {c : Char} (hc : Exponent.isMark c = true) :
    c.isDigit = false ∧ c ≠ '.' := by
  simp only [Exponent.isMark, Bool.or_eq_true, decide_eq_true_eq] at hc
  rcases hc with rfl | rfl <;> decide

/-- What follows the digits of a numeral stops them, be it the exponent or what comes
after the numeral. -/
theorem exponentChars_stops {exponent : Option Exponent} {rest : List Char}
    (hmark : ∀ e, exponent = some e → Exponent.isMark e.mark = true) (hrest : Boundary rest) :
    ∀ c, (exponentChars exponent ++ rest).head? = some c → c.isDigit = false ∧ c ≠ '.' := by
  intro c hc
  match exponent with
  | none => exact ⟨(hrest c hc).1, (hrest c hc).2.1⟩
  | some e =>
    simp only [exponentChars, Exponent.chars, List.cons_append, List.head?_cons,
      Option.some.injEq] at hc
    rw [← hc]
    exact not_digit_of_isMark (hmark e rfl)

/-- The point or whatever follows the whole part stops its digits. -/
theorem fractionChars_stops {fraction : Option (List Char)} {rest : List Char}
    (hrest : ∀ c, rest.head? = some c → c.isDigit = false ∧ c ≠ '.') :
    ∀ c, (fractionChars fraction ++ rest).head? = some c → c.isDigit = false := by
  intro c hc
  match fraction with
  | none => exact (hrest c hc).1
  | some digits =>
    simp only [fractionChars, List.cons_append, List.head?_cons, Option.some.injEq] at hc
    rw [← hc]
    decide

/-- What is written after the sign. -/
def body (n : Numeral) : List Char :=
  n.whole ++ (fractionChars n.fraction ++ exponentChars n.exponent)

theorem chars_eq (n : Numeral) : n.chars = Sign.chars n.sign ++ n.body := by
  rw [chars, body, List.append_assoc, List.append_assoc]

/-- No mark is a sign. -/
theorem ofChar?_of_isMark {c : Char} (hc : Exponent.isMark c = true) : Sign.ofChar? c = none := by
  simp only [Exponent.isMark, Bool.or_eq_true, decide_eq_true_eq] at hc
  rcases hc with rfl | rfl <;> rfl

/-- What is written after the sign does not begin with one. -/
theorem body_head {n : Numeral} (hn : n.Proper) :
    ∀ c, n.body.head? = some c → Sign.ofChar? c = none := by
  obtain ⟨sign, whole, fraction, exponent⟩ := n
  intro c hc
  match whole, fraction, exponent with
  | d :: ds, _, _ =>
    cases hc
    exact Sign.ofChar?_digit (hn.whole c List.mem_cons_self)
  | [], some digits, _ =>
    cases hc
    rfl
  | [], none, some e =>
    cases hc
    exact ofChar?_of_isMark (hn.mark e rfl)
  | [], none, none => cases hc

/-- The sign of a numeral is found, unless the numeral is empty and something follows it. -/
theorem sign_scan_chars {n : Numeral} (hn : n.Proper) {rest : List Char}
    (hdigits : n.digits ≠ [] ∨ rest = []) :
    Sign.scan (n.chars ++ rest) = (n.sign, n.body ++ rest) := by
  rw [chars_eq, List.append_assoc]
  refine Sign.scan_chars n.sign fun _ c hc => ?_
  cases hbody : n.body with
  | nil =>
    -- a numeral with digits has something after its sign
    have hempty : rest = [] := by
      refine hdigits.resolve_left fun hne => hne ?_
      simp only [body, List.append_eq_nil_iff] at hbody
      obtain ⟨hwhole, hfraction, -⟩ := hbody
      cases hf : n.fraction with
      | none => rw [digits, hwhole, hf]; rfl
      | some ds => rw [hf] at hfraction; cases hfraction
    rw [hbody, hempty] at hc
    cases hc
  | cons d ds =>
    rw [hbody] at hc
    exact body_head hn c (by rw [hbody]; exact hc)

/-- **Scanning undoes writing**, for a numeral that is not followed by more of its kind and that
has digits wherever a sign after it could be taken for its own. -/
theorem scan_chars_append {n : Numeral} (hn : n.Proper) {rest : List Char}
    (hdigits : n.digits ≠ [] ∨ rest = [])
    (hexponent : ∀ e, n.exponent = some e → e.digits ≠ [] ∨ rest = [])
    (hrest : Boundary rest) : scan (n.chars ++ rest) = (n, rest) := by
  have hafter := exponentChars_stops hn.mark hrest
  have hpoint : ∀ c, (fractionChars n.fraction ++ (exponentChars n.exponent ++ rest)).head? =
      some c → c.isDigit = false := fractionChars_stops hafter
  simp only [scan, sign_scan_chars hn hdigits, body, List.append_assoc,
    takeWhile_run hn.whole hpoint, dropWhile_run hn.whole hpoint,
    scanFraction_chars hn.fraction hafter,
    exponent_scan_chars hn.mark (fun e he => ⟨hexponent e he, hn.exponent e he⟩) hrest]

/-- So it does for a numeral that has digits wherever it may have them, whatever follows. -/
theorem scan_chars {n : Numeral} (hn : n.Proper) (hdigits : n.digits ≠ [])
    (hexponent : ∀ e, n.exponent = some e → e.digits ≠ []) {rest : List Char}
    (hrest : Boundary rest) : scan (n.chars ++ rest) = (n, rest) :=
  scan_chars_append hn (.inl hdigits) (fun e he => .inl (hexponent e he)) hrest

/-- And for any numeral by itself. -/
theorem scan_chars_self {n : Numeral} (hn : n.Proper) : scan n.chars = (n, []) := by
  have hscan : scan (n.chars ++ []) = (n, []) :=
    scan_chars_append hn (.inr rfl) (fun _ _ => .inr rfl) (by rintro c ⟨⟩)
  rwa [List.append_nil] at hscan

/-- **No two numerals are written alike.** -/
theorem chars_inj {m n : Numeral} (hm : m.Proper) (hn : n.Proper) (h : m.chars = n.chars) :
    m = n := by
  have hscan := scan_chars_self hm
  rw [h, scan_chars_self hn] at hscan
  exact (Prod.mk.inj hscan).1.symm

theorem digits_of_isInteger {n : Numeral} (h : n.isInteger = true) :
    n.digits ≠ [] ∧ ∀ e, n.exponent = some e → e.digits ≠ [] := by
  simp only [isInteger, Bool.and_eq_true, Bool.not_eq_true', List.isEmpty_eq_false_iff,
    Option.isNone_iff_eq_none] at h
  obtain ⟨⟨hwhole, hfraction⟩, hexponent⟩ := h
  refine ⟨?_, ?_⟩
  · simp only [digits, hfraction, Option.getD_none, List.append_nil]
    exact hwhole
  · intro e he
    rw [hexponent] at he
    cases he

theorem digits_of_isFloat {n : Numeral} (h : n.isFloat = true) :
    n.digits ≠ [] ∧ ∀ e, n.exponent = some e → e.digits ≠ [] := by
  simp only [isFloat, Bool.and_eq_true, Bool.not_eq_true', List.isEmpty_eq_false_iff] at h
  obtain ⟨hdigits, hrest⟩ := h
  refine ⟨hdigits, ?_⟩
  intro e he
  rw [he] at hrest
  simpa only [Bool.not_eq_true', List.isEmpty_eq_false_iff] using hrest

theorem isInteger_eq_false_of_isFloat {n : Numeral} (h : n.isFloat = true) :
    n.isInteger = false := by
  obtain ⟨sign, whole, fraction, exponent⟩ := n
  cases fraction <;> cases exponent <;> simp_all [isFloat, isInteger]

/-! ## Integers -/

theorem isDigit_toDigits (n : Nat) : ∀ c ∈ Nat.toDigits 10 n, c.isDigit = true :=
  fun _ hc => Nat.isDigit_of_mem_toDigits (by decide) (by decide) hc

theorem proper_ofInt (z : Int) : (ofInt z).Proper where
  whole := isDigit_toDigits _
  fraction := by simp [ofInt]
  mark := by simp [ofInt]
  exponent := by simp [ofInt]

theorem isInteger_ofInt (z : Int) : (ofInt z).isInteger = true := by
  simp [isInteger, ofInt]

/-- An integer is read back from its numeral. -/
theorem toInt_ofInt (z : Int) : (ofInt z).toInt = z := by
  have hmantissa : (ofInt z).mantissa = z.natAbs := by
    simp [mantissa, digits, ofInt]
  rw [toInt, hmantissa, negative, ofInt]
  by_cases hz : z < 0
  · simp only [if_pos hz, decide_true, if_true]
    omega
  · simp only [if_neg hz, reduceCtorEq, decide_false, Bool.false_eq_true, if_false]
    omega

/-- A numeral with digits before its point is not written as the empty text. -/
theorem text_ne_empty {n : Numeral} (h : n.whole ≠ []) : n.text ≠ "" := by
  intro htext
  have hchars : n.chars = [] := String.ofList_injective htext
  rw [chars_eq, body] at hchars
  exact h (List.append_eq_nil_iff.mp (List.append_eq_nil_iff.mp hchars).2).1

/-- The text of a natural number is its digits. -/
theorem toList_text_ofNat (n : Nat) : (ofInt n).text.toList = Nat.toDigits 10 n := by
  simp [text, chars, ofInt, Sign.chars, fractionChars, exponentChars]

/-- Different natural numbers have different texts. -/
theorem ofNat_of_text_eq {m n : Nat} (h : (ofInt m).text = (ofInt n).text) : m = n := by
  have hvalue : ∀ k : Nat, Nat.ofDigitChars 10 (Nat.toDigits 10 k) 0 = k := by simp
  rw [← hvalue m, ← toList_text_ofNat, h, toList_text_ofNat, hvalue]

/-- **A 64-bit integer is read back from its numeral.** -/
theorem toInt64?_ofInt64 (i : Int64) : (ofInt64 i).toInt64? = some i := by
  rw [toInt64?, ofInt64, toInt_ofInt, if_pos ⟨i.minValue_le_toInt, i.toInt_le⟩, Int64.ofInt_toInt]

/-! ## Floats

A layout is judged by the decimal that its numeral denotes. -/

/-- The decimal that a numeral denotes, its sign apart. -/
def decimal (n : Numeral) : Decimal := ⟨n.mantissa, n.scale⟩

/-- A numeral reads as a double if its decimal has the value of one that does. -/
theorem toBinary64_of_value_eq {n : Numeral} {d : Decimal} {x : Binary64}
    (hvalue : n.decimal.value = d.value) (hsign : n.negative = x.negative)
    (hd : Binary64.ofDecimal x.negative d.digits d.scale = x) : n.toBinary64 = x := by
  have hcongr := Binary64.ofDecimal_congr x.negative hvalue
  rw [toBinary64, hsign]
  exact hcongr.trans hd

end Numeral

namespace Notation

/-- The number that a list of digits writes. -/
def digitValue (digits : List Char) : Nat := Nat.ofDigitChars 10 digits 0

theorem digitValue_zeros_append (n : Nat) (ds : List Char) :
    digitValue (List.replicate n '0' ++ ds) = digitValue ds := by
  rw [digitValue, Nat.ofDigitChars_append, Nat.ofDigitChars_replicate_zero, Nat.mul_zero]
  rfl

theorem digitValue_append_zeros (ds : List Char) (n : Nat) :
    digitValue (ds ++ List.replicate n '0') = 10 ^ n * digitValue ds := by
  rw [digitValue, Nat.ofDigitChars_append, Nat.ofDigitChars_replicate_zero]
  rfl

/-- Dropping the zeros at the end of a list of digits drops zeros and nothing else. -/
theorem dropTrailingZeros_append (digits : List Char) :
    ∃ n, digits = dropTrailingZeros digits ++ List.replicate n '0' := by
  have hzeros : ∀ c ∈ digits.reverse.takeWhile (· = '0'), c = '0' := by
    intro c hc
    have htrue : decide (c = '0') = true :=
      List.mem_takeWhile_imp (p := fun c => decide (c = '0')) hc
    exact of_decide_eq_true htrue
  -- the zeros at the end are those at the start of the reversed list
  refine ⟨(digits.reverse.takeWhile (· = '0')).length, ?_⟩
  have hsplit : digits.reverse
      = digits.reverse.takeWhile (· = '0') ++ digits.reverse.dropWhile (· = '0') :=
    List.takeWhile_append_dropWhile.symm
  conv_lhs => rw [← List.reverse_reverse digits, hsplit, List.reverse_append,
    List.eq_replicate_of_mem hzeros, List.reverse_replicate]
  rfl

/-! ### Positional layout

The point stands before, among or after the digits, and zeros fill the gap. -/

variable (f : Notation) {digits : List Char} {k : Int}

/-- The point before the digits. -/
theorem positional_of_nonpos (hdigits : digits ≠ []) (hk : k ≤ 0) :
    f.positional digits k = (['0'], some (List.replicate (-k).toNat '0' ++ digits)) := by
  have hto : k.toNat = 0 := Int.toNat_of_nonpos hk
  simp [positional, hto, hdigits]

/-- The point among the digits. -/
theorem positional_of_lt (hk : 0 < k) (hlt : k < digits.length) :
    f.positional digits k = (digits.take k.toNat, some (digits.drop k.toNat)) := by
  have hneg : (-k).toNat = 0 := Int.toNat_of_nonpos (by omega)
  have hgap : k.toNat - digits.length = 0 := by omega
  have hwhole : digits.take k.toNat ≠ [] := by
    rw [ne_eq, List.take_eq_nil_iff]
    rintro (h | h)
    · omega
    · rw [h, List.length_nil] at hlt
      omega
  have hfraction : digits.drop k.toNat ≠ [] := by
    rw [ne_eq, List.drop_eq_nil_iff]
    omega
  simp [positional, hneg, hgap, hwhole, hfraction]

/-- The point after the digits. -/
theorem positional_of_le (hdigits : digits ≠ []) (hle : digits.length ≤ k) :
    f.positional digits k = (digits ++ List.replicate (k.toNat - digits.length) '0',
      if f.pointed then some ['0'] else none) := by
  have hneg : (-k).toNat = 0 := Int.toNat_of_nonpos (by omega)
  have htake : digits.take k.toNat = digits := List.take_of_length_le (by omega)
  have hdrop : digits.drop k.toNat = [] := List.drop_of_length_le (by omega)
  simp [positional, hneg, htake, hdrop, hdigits]

theorem positional_cases (hdigits : digits ≠ []) (k : Int) :
    (k ≤ 0 ∧ f.positional digits k = (['0'], some (List.replicate (-k).toNat '0' ++ digits))) ∨
      (0 < k ∧ k < digits.length ∧
        f.positional digits k = (digits.take k.toNat, some (digits.drop k.toNat))) ∨
      ((digits.length : Int) ≤ k ∧
        f.positional digits k = (digits ++ List.replicate (k.toNat - digits.length) '0',
          if f.pointed then some ['0'] else none)) := by
  rcases le_or_gt k 0 with hk | hk
  · exact .inl ⟨hk, positional_of_nonpos f hdigits hk⟩
  rcases lt_or_ge k (digits.length : Int) with hlt | hle
  · exact .inr (.inl ⟨hk, hlt, positional_of_lt f hk hlt⟩)
  · exact .inr (.inr ⟨hle, positional_of_le f hdigits hle⟩)

/-- Wherever the point stands, the value is that of the digits with the point after `k` of
them. -/
theorem value_positional (hdigits : digits ≠ []) :
    (digitValue ((f.positional digits k).1 ++ (f.positional digits k).2.getD []) : ℚ)
        * (10 : ℚ) ^ (-(((f.positional digits k).2.getD []).length : Int))
      = (digitValue digits : ℚ) * (10 : ℚ) ^ (k - digits.length) := by
  rcases positional_cases f hdigits k with ⟨hk, hplace⟩ | ⟨hk, hlt, hplace⟩ | ⟨hle, hplace⟩
  · rw [hplace]
    have hzero : digitValue (['0'] ++ (List.replicate (-k).toNat '0' ++ digits))
        = digitValue digits := by
      rw [show ['0'] = List.replicate 1 '0' from rfl, digitValue_zeros_append,
        digitValue_zeros_append]
    simp only [Option.getD_some, hzero, List.length_append, List.length_replicate]
    congr 2
    omega
  · rw [hplace]
    simp only [Option.getD_some, List.take_append_drop, List.length_drop]
    congr 2
    omega
  · rw [hplace]
    have hgap : ((k.toNat - digits.length : ℕ) : Int) = k - digits.length := by omega
    cases f.pointed with
    | false =>
      simp only [Bool.false_eq_true, if_false, Option.getD_none, List.append_nil, List.length_nil,
        digitValue_append_zeros]
      rw [← hgap, zpow_natCast]
      push_cast
      ring
    | true =>
      -- the zero after the point is one more zero at the end of the digits
      have happend : digits ++ List.replicate (k.toNat - digits.length) '0' ++ ['0']
          = digits ++ List.replicate (k.toNat - digits.length + 1) '0' := by
        rw [List.append_assoc, List.replicate_succ']
      simp only [if_true, Option.getD_some, happend, digitValue_append_zeros, List.length_singleton]
      rw [← hgap, zpow_natCast]
      push_cast
      ring

theorem isDigit_positional (hdigits : digits ≠ []) (hall : ∀ c ∈ digits, c.isDigit = true) :
    (∀ c ∈ (f.positional digits k).1, c.isDigit = true) ∧
      ∀ c ∈ (f.positional digits k).2.getD [], c.isDigit = true := by
  have hzeros : ∀ n, ∀ c ∈ List.replicate n '0', c.isDigit = true := by
    intro n c hc
    rw [List.eq_of_mem_replicate hc]
    decide
  rcases positional_cases f hdigits k with ⟨-, hplace⟩ | ⟨-, -, hplace⟩ | ⟨-, hplace⟩
  · rw [hplace]
    refine ⟨hzeros 1, ?_⟩
    intro c hc
    rcases List.mem_append.mp hc with h | h
    · exact hzeros _ c h
    · exact hall c h
  · rw [hplace]
    exact ⟨fun c hc => hall c (List.mem_of_mem_take hc),
      fun c hc => hall c (List.mem_of_mem_drop hc)⟩
  · rw [hplace]
    refine ⟨?_, ?_⟩
    · intro c hc
      rcases List.mem_append.mp hc with h | h
      · exact hall c h
      · exact hzeros _ c h
    · cases f.pointed with
      | false => simp
      | true => exact hzeros 1

/-- A positional layout has digits before the point, and a format that marks floats has a
point. -/
theorem positional_ne_nil (hdigits : digits ≠ []) (k : Int) :
    (f.positional digits k).1 ≠ [] ∧
      (f.pointed = true → (f.positional digits k).2.isSome = true) := by
  rcases positional_cases f hdigits k with ⟨-, hplace⟩ | ⟨hk, -, hplace⟩ | ⟨-, hplace⟩
  · rw [hplace]
    simp
  · rw [hplace]
    refine ⟨?_, fun _ => rfl⟩
    rw [ne_eq, List.take_eq_nil_iff]
    rintro (h | h)
    · omega
    · exact hdigits h
  · rw [hplace]
    refine ⟨by simp [hdigits], ?_⟩
    intro hpointed
    rw [if_pos hpointed]
    rfl

/-! ### The numeral of a double -/

/-- The digits of the shortest decimal without the zeros at their end. -/
def shortestDigits (x : Binary64) : List Char :=
  dropTrailingZeros (Nat.toDigits 10 (x.shortest f.tie).digits)

/-- How many of these digits stand before the point. -/
def shortestPoint (x : Binary64) : Int :=
  (Nat.toDigits 10 (x.shortest f.tie).digits).length + (x.shortest f.tie).scale

theorem isDigit_shortestDigits (x : Binary64) :
    ∀ c ∈ f.shortestDigits x, c.isDigit = true := by
  intro c hc
  obtain ⟨n, hn⟩ := dropTrailingZeros_append (Nat.toDigits 10 (x.shortest f.tie).digits)
  apply Numeral.isDigit_toDigits (x.shortest f.tie).digits
  rw [hn]
  exact List.mem_append_left _ hc

/-- The digits and the place of the point have the value of the shortest decimal. -/
theorem value_shortest (x : Binary64) :
    (x.shortest f.tie).value = (digitValue (f.shortestDigits x) : ℚ)
      * (10 : ℚ) ^ (f.shortestPoint x - (f.shortestDigits x).length) := by
  obtain ⟨n, hn⟩ := dropTrailingZeros_append (Nat.toDigits 10 (x.shortest f.tie).digits)
  have hvalue : (x.shortest f.tie).digits = 10 ^ n * digitValue (f.shortestDigits x) := by
    have hwritten : digitValue (Nat.toDigits 10 (x.shortest f.tie).digits)
        = (x.shortest f.tie).digits := Nat.ofDigitChars_ten_toDigits
    rw [← hwritten, shortestDigits, ← digitValue_append_zeros, ← hn]
  have hlength : (Nat.toDigits 10 (x.shortest f.tie).digits).length
      = (f.shortestDigits x).length + n := by
    conv_lhs => rw [hn, List.length_append, List.length_replicate]
    rfl
  -- the zeros that are dropped go into the scale
  have hscale : f.shortestPoint x - (f.shortestDigits x).length = n + (x.shortest f.tie).scale := by
    rw [shortestPoint, hlength]
    push_cast
    ring
  rw [Decimal.value, hscale, zpow_add₀ (by norm_num), zpow_natCast, hvalue]
  push_cast
  ring

/-- The digits of a double that is no zero do not run out. -/
theorem shortestDigits_ne_nil {x : Binary64} (hx : x.isFinite = true) (hzero : x.isZero = false) :
    f.shortestDigits x ≠ [] := by
  intro hnil
  have hvalue : (x.shortest f.tie).value = 0 := by
    rw [value_shortest, hnil]
    simp [digitValue]
  have hdigits : (x.shortest f.tie).digits = 0 := (Decimal.value_eq_zero_iff _).mp hvalue
  have hback := Binary64.ofDecimal_shortest f.tie hx
  rw [hdigits, Binary64.ofDecimal, if_pos rfl] at hback
  rw [← hback] at hzero
  exact absurd hzero (by simp [Binary64.isZero, Binary64.zero])

theorem numeral_of_isZero {x : Binary64} (hzero : x.isZero = true) :
    f.numeral x = ⟨if x.negative then some .minus else none, ['0'],
      if f.pointed then some ['0'] else none, none⟩ := by
  simp only [numeral, if_pos hzero]

theorem numeral_of_isPositional {x : Binary64} (hzero : x.isZero = false)
    (hk : f.isPositional (f.shortestPoint x) = true) :
    f.numeral x = ⟨if x.negative then some .minus else none,
      (f.positional (f.shortestDigits x) (f.shortestPoint x)).1,
      (f.positional (f.shortestDigits x) (f.shortestPoint x)).2, none⟩ := by
  have hk' : f.isPositional ((Nat.toDigits 10 (x.shortest f.tie).digits).length
      + (x.shortest f.tie).scale) = true := hk
  simp only [numeral, hzero, Bool.false_eq_true, if_false, if_pos hk']
  rfl

theorem numeral_of_not_isPositional {x : Binary64} (hzero : x.isZero = false)
    (hk : f.isPositional (f.shortestPoint x) = false) :
    f.numeral x = ⟨if x.negative then some .minus else none, (f.shortestDigits x).take 1,
      if (f.shortestDigits x).length ≤ 1 then none else some ((f.shortestDigits x).drop 1),
      some (f.exponent (f.shortestPoint x - 1))⟩ := by
  have hk' : f.isPositional ((Nat.toDigits 10 (x.shortest f.tie).digits).length
      + (x.shortest f.tie).scale) = false := hk
  simp only [numeral, hzero, Bool.false_eq_true, if_false, hk']
  rfl

theorem toInt_exponent (k : Int) : (f.exponent k).toInt = k := by
  have hsize : Nat.ofDigitChars 10 (Nat.toDigits 10 k.natAbs) 0 = k.natAbs :=
    Nat.ofDigitChars_ten_toDigits
  simp only [Exponent.toInt, exponent, hsize]
  by_cases hk : k < 0
  · simp only [if_pos hk, if_true]
    omega
  · have hsign : (if f.signed = true then some Sign.plus else none) ≠ some Sign.minus := by
      cases f.signed <;> decide
    simp only [if_neg hk, if_neg hsign]
    omega

/-- **The numeral of a finite double denotes it**, in every format. -/
theorem toBinary64_numeral {x : Binary64} (hx : x.isFinite = true) :
    (f.numeral x).toBinary64 = x := by
  have hback := Binary64.ofDecimal_shortest f.tie hx
  have hminus : ∀ whole fraction exponent, (Numeral.mk (if x.negative then some .minus else none)
      whole fraction exponent).negative = x.negative := by
    intro whole fraction exponent
    cases x.negative <;> rfl
  cases hzero : x.isZero with
  | true =>
    -- a zero keeps its sign, which no value could tell
    have hmagnitude : x.magnitude = 0 := of_decide_eq_true hzero
    have hmantissa : (f.numeral x).mantissa = 0 := by
      rw [numeral_of_isZero f hzero]
      cases f.pointed <;> rfl
    have hnegative : (f.numeral x).negative = x.negative := by
      rw [numeral_of_isZero f hzero]
      exact hminus _ _ _
    rw [Numeral.toBinary64, Binary64.ofDecimal, if_pos hmantissa, hnegative]
    exact Binary64.eq_zero_of_magnitude hmagnitude
  | false =>
    have hdigits := shortestDigits_ne_nil f hx hzero
    cases hk : f.isPositional (f.shortestPoint x) with
    | true =>
      rw [numeral_of_isPositional f hzero hk]
      apply Numeral.toBinary64_of_value_eq _ (hminus _ _ _) hback
      rw [value_shortest, ← value_positional f hdigits]
      simp only [Decimal.value, Numeral.decimal, Numeral.mantissa, Numeral.digits, Numeral.scale,
        Option.map_none, Option.getD_none, zero_sub]
      rfl
    | false =>
      rw [numeral_of_not_isPositional f hzero hk]
      apply Numeral.toBinary64_of_value_eq _ (hminus _ _ _) hback
      -- a single digit has no fraction, which counts as an empty one
      have hfraction : (if (f.shortestDigits x).length ≤ 1 then none
          else some ((f.shortestDigits x).drop 1)).getD [] = (f.shortestDigits x).drop 1 := by
        split
        · rename_i hle
          rw [List.drop_of_length_le hle, Option.getD_none]
        · rfl
      have hpos : 0 < (f.shortestDigits x).length := List.length_pos_of_ne_nil hdigits
      rw [value_shortest]
      simp only [Decimal.value, Numeral.decimal, Numeral.mantissa, Numeral.digits, Numeral.scale,
        Option.map_some, Option.getD_some, hfraction, List.take_append_drop, toInt_exponent,
        List.length_drop]
      congr 2
      omega

/-- The numeral of a finite double is one that the scanner could make. -/
theorem proper_numeral {x : Binary64} (hx : x.isFinite = true) : (f.numeral x).Proper := by
  cases hzero : x.isZero with
  | true =>
    rw [numeral_of_isZero f hzero]
    cases f.pointed <;> exact ⟨by simp, by simp, by simp, by simp⟩
  | false =>
    have hdigits := shortestDigits_ne_nil f hx hzero
    have hall := isDigit_shortestDigits f x
    cases hk : f.isPositional (f.shortestPoint x) with
    | true =>
      rw [numeral_of_isPositional f hzero hk]
      obtain ⟨hwhole, hfraction⟩ := isDigit_positional f (k := f.shortestPoint x) hdigits hall
      exact ⟨hwhole, hfraction, by simp, by simp⟩
    | false =>
      rw [numeral_of_not_isPositional f hzero hk]
      refine ⟨fun c hc => hall c (List.mem_of_mem_take hc), ?_, ?_, ?_⟩
      · intro c hc
        dsimp only at hc
        split at hc
        · simp at hc
        · exact hall c (List.mem_of_mem_drop hc)
      · intro e he
        cases he
        rfl
      · intro e he
        cases he
        exact Numeral.isDigit_toDigits _

/-- In a notation that always has a point, it is a float. -/
theorem isFloat_numeral {x : Binary64} (hx : x.isFinite = true) (hf : f.pointed = true) :
    (f.numeral x).isFloat = true := by
  cases hzero : x.isZero with
  | true =>
    rw [numeral_of_isZero f hzero, hf]
    rfl
  | false =>
    have hdigits := shortestDigits_ne_nil f hx hzero
    cases hk : f.isPositional (f.shortestPoint x) with
    | true =>
      rw [numeral_of_isPositional f hzero hk]
      obtain ⟨hwhole, hfraction⟩ := positional_ne_nil f hdigits (f.shortestPoint x)
      simp [Numeral.isFloat, Numeral.digits, hwhole, hfraction hf]
    | false =>
      rw [numeral_of_not_isPositional f hzero hk]
      simp [Numeral.isFloat, Numeral.digits, exponent, hdigits]

end Notation

end DataLisp
