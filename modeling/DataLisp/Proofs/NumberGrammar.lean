/-
The grammar of number text.

What counts as an integer or a float is said here of texts, as regular languages, without a look at
the scanner or at the parts of a numeral. The scanner is then found to keep to it, in two steps.

It takes the longest text that may be the start of a number (`scan_longest`). Each of its stages is
greedy: it takes at least every word of its language that stands there, and exactly that word if the
text goes on with what the later stages look for. This holds because no later stage begins with a
character that the stage would have taken itself, and it is kept when stages are put together
(`Greedy.andThen`), so the stages can be looked at one by one.

And the numeral that it makes of this text is an integer or a float exactly if the text is one
(`chars_mem_integer_iff`, `chars_mem_float_iff`). The words of a language are those that numerals
with certain parts write, and no two numerals are written alike.
-/
import DataLisp.Proofs.Spelling
import Mathlib.Computability.Language

set_option autoImplicit false

namespace DataLisp.Numeral

open Computability

/-! ## Languages -/

namespace Grammar

/-- At most a sign: `[+-]?`. -/
def sign : Language Char := {[], ['+'], ['-']}

/-- A digit: `[0-9]`. -/
def digit : Language Char := {cs | ∃ c : Char, c.isDigit = true ∧ cs = [c]}

/-- The point in front of a fraction. -/
def point : Language Char := {['.']}

/-- The letter in front of an exponent: `[eE]`. -/
def mark : Language Char := {['e'], ['E']}

/-- Integers: `[+-]?[0-9]+`. -/
def integer : Language Char := sign * (digit * digit∗)

/-- Exponents: `[eE][+-]?[0-9]+`. -/
def exponent : Language Char := mark * integer

/-- Digits around a point, at least one on either side: `[0-9]+[.][0-9]*` and `[.][0-9]+`. -/
def pointed : Language Char := digit * digit∗ * (point * digit∗) + point * (digit * digit∗)

/-- Floats: at most a sign, then digits with a point and perhaps an exponent, or digits with an
exponent. -/
def float : Language Char := sign * (pointed * (1 + exponent) + digit * digit∗ * exponent)

/-- A fraction without regard to how many digits it has: `([.][0-9]*)?`. -/
def anyFraction : Language Char := 1 + point * digit∗

/-- An exponent without regard to how many digits it has: `([eE][+-]?[0-9]*)?`. -/
def anyExponent : Language Char := 1 + mark * (sign * digit∗)

/-- What may be the start of a number: `[+-]?[0-9]*([.][0-9]*)?([eE][+-]?[0-9]*)?`. -/
def run : Language Char := sign * (digit∗ * (anyFraction * anyExponent))

/-! ### Words -/

variable {cs : List Char}

/-- The words of a sign are what a sign writes, which is nothing if there is none. -/
theorem mem_sign : cs ∈ sign ↔ ∃ s : Option Sign, Sign.chars s = cs := by
  refine ⟨?_, ?_⟩
  · rintro (rfl | rfl | rfl)
    exacts [⟨none, rfl⟩, ⟨some .plus, rfl⟩, ⟨some .minus, rfl⟩]
  · rintro ⟨_ | _ | _, rfl⟩
    exacts [.inl rfl, .inr (.inl rfl), .inr (.inr rfl)]

theorem mem_point : ['.'] ∈ point := rfl

theorem mem_mark : cs ∈ mark ↔ ∃ c, Exponent.isMark c = true ∧ cs = [c] := by
  refine ⟨?_, ?_⟩
  · rintro (rfl | rfl)
    exacts [⟨'e', rfl, rfl⟩, ⟨'E', rfl, rfl⟩]
  · rintro ⟨c, hc, rfl⟩
    simp only [Exponent.isMark, Bool.or_eq_true, decide_eq_true_eq] at hc
    rcases hc with rfl | rfl
    exacts [.inl rfl, .inr rfl]

/-- A run of digits is any text in which there is nothing else. -/
theorem mem_digits : cs ∈ digit∗ ↔ ∀ c ∈ cs, c.isDigit = true := by
  refine ⟨?_, ?_⟩
  · rintro ⟨words, rfl, hwords⟩ c hc
    obtain ⟨word, hword, hc⟩ := List.mem_flatten.mp hc
    obtain ⟨d, hd, rfl⟩ := hwords word hword
    rw [List.mem_singleton.mp hc]
    exact hd
  · intro hcs
    have hflat : cs = (cs.map fun c => [c]).flatten := by
      rw [← List.flatMap_def, List.flatMap_singleton']
    rw [hflat]
    refine Language.join_mem_kstar ?_
    intro word hword
    obtain ⟨c, hc, rfl⟩ := List.mem_map.mp hword
    exact ⟨c, hcs c hc, rfl⟩

theorem mem_digits_pos : cs ∈ digit * digit∗ ↔ cs ≠ [] ∧ ∀ c ∈ cs, c.isDigit = true := by
  refine ⟨?_, ?_⟩
  · rintro ⟨_, ⟨c, hc, rfl⟩, ds, hds, rfl⟩
    refine ⟨List.cons_ne_nil c ds, ?_⟩
    exact List.forall_mem_cons.mpr ⟨hc, mem_digits.mp hds⟩
  · rintro ⟨hne, hcs⟩
    obtain ⟨c, ds, rfl⟩ := List.exists_cons_of_ne_nil hne
    rw [List.forall_mem_cons] at hcs
    have hc : [c] ∈ digit := ⟨c, hcs.1, rfl⟩
    exact Language.append_mem_mul hc (mem_digits.mpr hcs.2)

/-- A fraction is a point with digits, or nothing at all. -/
theorem mem_anyFraction : cs ∈ anyFraction ↔
    ∃ f : Option (List Char), (∀ c ∈ f.getD [], c.isDigit = true) ∧ fractionChars f = cs := by
  refine ⟨?_, ?_⟩
  · rintro (rfl | ⟨_, rfl, ds, hds, rfl⟩)
    · exact ⟨none, List.forall_mem_nil _, rfl⟩
    · exact ⟨some ds, mem_digits.mp hds, rfl⟩
  · rintro ⟨_ | ds, hds, rfl⟩
    · exact .inl rfl
    · exact .inr (Language.append_mem_mul mem_point (mem_digits.mpr hds))

/-- An exponent is a mark, a sign, and digits of which there may be fewer or more. -/
theorem mem_marked {l : Language Char} : cs ∈ mark * (sign * l) ↔
    ∃ e : Exponent, Exponent.isMark e.mark = true ∧ e.digits ∈ l ∧ e.chars = cs := by
  refine ⟨?_, ?_⟩
  · rintro ⟨_, hmark, _, ⟨_, hsign, ds, hds, rfl⟩, rfl⟩
    obtain ⟨c, hc, rfl⟩ := mem_mark.mp hmark
    obtain ⟨s, rfl⟩ := mem_sign.mp hsign
    exact ⟨⟨c, s, ds⟩, hc, hds, rfl⟩
  · rintro ⟨⟨c, s, ds⟩, hc, hds, rfl⟩
    refine Language.append_mem_mul (mem_mark.mpr ⟨c, hc, rfl⟩) ?_
    exact Language.append_mem_mul (mem_sign.mpr ⟨s, rfl⟩) hds

/-- An exponent of a number has a digit. -/
theorem mem_exponent : cs ∈ exponent ↔ ∃ e : Exponent, Exponent.isMark e.mark = true ∧
    (e.digits ≠ [] ∧ ∀ c ∈ e.digits, c.isDigit = true) ∧ e.chars = cs := by
  rw [exponent, integer, mem_marked]
  simp only [mem_digits_pos]

/-- A mark may stand without digits where a number only may start. -/
theorem mem_anyExponent : cs ∈ anyExponent ↔ ∃ e : Option Exponent,
    (∀ x, e = some x → Exponent.isMark x.mark = true ∧ ∀ c ∈ x.digits, c.isDigit = true) ∧
      exponentChars e = cs := by
  refine ⟨?_, ?_⟩
  · rintro (rfl | h)
    · exact ⟨none, by rintro _ ⟨⟩, rfl⟩
    · obtain ⟨e, hmark, hdigits, rfl⟩ := mem_marked.mp h
      refine ⟨some e, ?_, rfl⟩
      rintro _ ⟨⟩
      exact ⟨hmark, mem_digits.mp hdigits⟩
  · rintro ⟨_ | e, hparts, rfl⟩
    · exact .inl rfl
    · obtain ⟨hmark, hdigits⟩ := hparts e rfl
      exact .inr (mem_marked.mpr ⟨e, hmark, mem_digits.mpr hdigits, rfl⟩)

/-- The two ways of having a digit beside the point, as one. -/
theorem mem_pointed : cs ∈ pointed ↔ ∃ whole fraction : List Char,
    whole ++ fraction ≠ [] ∧ (∀ c ∈ whole, c.isDigit = true) ∧
      (∀ c ∈ fraction, c.isDigit = true) ∧ whole ++ '.' :: fraction = cs := by
  refine ⟨?_, ?_⟩
  · rintro (⟨ws, hws, _, ⟨_, rfl, fs, hfs, rfl⟩, rfl⟩ | ⟨_, rfl, fs, hfs, rfl⟩)
    · obtain ⟨hne, hwhole⟩ := mem_digits_pos.mp hws
      exact ⟨ws, fs, by simp [hne], hwhole, mem_digits.mp hfs, rfl⟩
    · obtain ⟨hne, hfraction⟩ := mem_digits_pos.mp hfs
      exact ⟨[], fs, hne, List.forall_mem_nil _, hfraction, rfl⟩
  · rintro ⟨ws, fs, hne, hws, hfs, rfl⟩
    by_cases hwhole : ws = []
    · subst hwhole
      exact .inr (Language.append_mem_mul (a := ['.']) mem_point (mem_digits_pos.mpr ⟨hne, hfs⟩))
    · refine .inl (Language.append_mem_mul (mem_digits_pos.mpr ⟨hwhole, hws⟩) ?_)
      exact Language.append_mem_mul mem_point (mem_digits.mpr hfs)

end Grammar

/-! ## Words and numerals

A word of a language is what a numeral with certain parts writes. No two numerals are written alike,
so a numeral that is written as a word of the language has these parts itself. -/

section Words

variable {n : Numeral}

/-- Whatever its parts, a numeral may be the start of a number. -/
theorem Proper.chars_mem_run (hn : n.Proper) : n.chars ∈ Grammar.run := by
  rw [chars_eq, body]
  refine Language.append_mem_mul (Grammar.mem_sign.mpr ⟨n.sign, rfl⟩) ?_
  refine Language.append_mem_mul (Grammar.mem_digits.mpr hn.whole) ?_
  refine Language.append_mem_mul (Grammar.mem_anyFraction.mpr ⟨n.fraction, hn.fraction, rfl⟩) ?_
  exact Grammar.mem_anyExponent.mpr
    ⟨n.exponent, fun e he => ⟨hn.mark e he, hn.exponent e he⟩, rfl⟩

/-- **A numeral is an integer exactly if it is written as one.** -/
theorem Proper.chars_mem_integer_iff (hn : n.Proper) :
    n.chars ∈ Grammar.integer ↔ n.isInteger = true := by
  refine ⟨?_, ?_⟩
  · rintro ⟨_, hsign, ds, hds, hchars⟩
    obtain ⟨s, rfl⟩ := Grammar.mem_sign.mp hsign
    obtain ⟨hne, hdigits⟩ := Grammar.mem_digits_pos.mp hds
    have hm : (Numeral.mk s ds none none).Proper := ⟨hdigits, by simp, by simp, by simp⟩
    have hwritten : (Numeral.mk s ds none none).chars = n.chars := by
      rw [← hchars, chars_eq, body]
      simp [fractionChars, exponentChars]
    rw [← chars_inj hm hn hwritten]
    simp [isInteger, hne]
  · intro h
    obtain ⟨s, whole, fraction, exponent⟩ := n
    simp only [isInteger, Bool.and_eq_true, Bool.not_eq_true', List.isEmpty_eq_false_iff,
      Option.isNone_iff_eq_none] at h
    obtain ⟨⟨hwhole, rfl⟩, rfl⟩ := h
    rw [chars_eq, body, fractionChars, exponentChars, List.append_nil, List.append_nil]
    exact Language.append_mem_mul (Grammar.mem_sign.mpr ⟨s, rfl⟩)
      (Grammar.mem_digits_pos.mpr ⟨hwhole, hn.whole⟩)

/-- What is written after the sign of a float. -/
theorem mem_floatBody {cs : List Char} :
    cs ∈ Grammar.pointed * (1 + Grammar.exponent) +
        Grammar.digit * Grammar.digit∗ * Grammar.exponent ↔
      ∃ n : Numeral, n.Proper ∧ n.isFloat = true ∧ n.body = cs := by
  refine ⟨?_, ?_⟩
  · rintro (⟨_, hpointed, _, rfl | hexponent, rfl⟩ | ⟨ws, hws, _, hexponent, rfl⟩)
    · obtain ⟨ws, fs, hne, hws, hfs, rfl⟩ := Grammar.mem_pointed.mp hpointed
      refine ⟨⟨none, ws, some fs, none⟩, ⟨hws, hfs, by simp, by simp⟩, ?_, ?_⟩
      · simpa [isFloat, digits] using hne
      · simp [body, fractionChars, exponentChars]
    · obtain ⟨ws, fs, hne, hws, hfs, rfl⟩ := Grammar.mem_pointed.mp hpointed
      obtain ⟨e, hmark, ⟨hdigits, hes⟩, rfl⟩ := Grammar.mem_exponent.mp hexponent
      refine ⟨⟨none, ws, some fs, some e⟩, ⟨hws, hfs, by simpa, by simpa⟩, ?_, ?_⟩
      · simpa [isFloat, digits, hdigits] using hne
      · simp [body, fractionChars, exponentChars]
    · obtain ⟨hne, hws⟩ := Grammar.mem_digits_pos.mp hws
      obtain ⟨e, hmark, ⟨hdigits, hes⟩, rfl⟩ := Grammar.mem_exponent.mp hexponent
      refine ⟨⟨none, ws, none, some e⟩, ⟨hws, by simp, by simpa, by simpa⟩, ?_, ?_⟩
      · simp [isFloat, digits, hne, hdigits]
      · simp [body, fractionChars, exponentChars]
  · rintro ⟨⟨s, ws, fraction, exponent⟩, hn, h, rfl⟩
    obtain ⟨hdigits, hexponent⟩ := digits_of_isFloat h
    have hmarked : ∀ e, exponent = some e → e.chars ∈ Grammar.exponent := fun e he =>
      Grammar.mem_exponent.mpr ⟨e, hn.mark e he, ⟨hexponent e he, hn.exponent e he⟩, rfl⟩
    cases fraction with
    | some fs =>
      have hpointed : ws ++ '.' :: fs ∈ Grammar.pointed :=
        Grammar.mem_pointed.mpr ⟨ws, fs, hdigits, hn.whole, hn.fraction, rfl⟩
      rw [body, ← List.append_assoc]
      refine .inl (Language.append_mem_mul hpointed ?_)
      cases exponent with
      | none => exact .inl rfl
      | some e => exact .inr (hmarked e rfl)
    | none =>
      -- without a point there is an exponent, and there are digits in front of it
      cases exponent with
      | none => simp [isFloat] at h
      | some e =>
        have hwhole : ws ≠ [] := by simpa [digits] using hdigits
        exact .inr (Language.append_mem_mul (Grammar.mem_digits_pos.mpr ⟨hwhole, hn.whole⟩)
          (hmarked e rfl))

/-- **A numeral is a float exactly if it is written as one.** -/
theorem Proper.chars_mem_float_iff (hn : n.Proper) :
    n.chars ∈ Grammar.float ↔ n.isFloat = true := by
  refine ⟨?_, ?_⟩
  · rintro ⟨_, hsign, _, hbody, hchars⟩
    obtain ⟨s, rfl⟩ := Grammar.mem_sign.mp hsign
    obtain ⟨m, hm, hfloat, rfl⟩ := mem_floatBody.mp hbody
    -- the sign makes no difference to the parts
    have hsigned : ({ m with sign := s } : Numeral).Proper :=
      ⟨hm.whole, hm.fraction, hm.mark, hm.exponent⟩
    rw [← chars_inj hsigned hn ((chars_eq _).trans hchars)]
    exact hfloat
  · intro h
    rw [chars_eq]
    exact Language.append_mem_mul (Grammar.mem_sign.mpr ⟨n.sign, rfl⟩)
      (mem_floatBody.mpr ⟨n, hn, h, rfl⟩)

/-- No numeral is both. -/
theorem not_isFloat_of_isInteger (h : n.isInteger = true) : n.isFloat = false := by
  obtain ⟨sign, whole, fraction, exponent⟩ := n
  simp only [isInteger, Bool.and_eq_true, Option.isNone_iff_eq_none] at h
  obtain ⟨⟨-, rfl⟩, rfl⟩ := h
  simp [isFloat]

end Words

/-! ## The longest run -/

/-- What a stage of the scanner takes, and what it leaves. -/
abbrev Stage := List Char → List Char × List Char

namespace Stage

/-- One stage after another. -/
def andThen (f g : Stage) : Stage := fun cs =>
  ((f cs).1 ++ (g (f cs).2).1, (g (f cs).2).2)

/-- A sign. -/
def sign : Stage := fun cs => (Sign.chars (Sign.scan cs).1, (Sign.scan cs).2)

/-- Digits. -/
def digits : Stage := fun cs => (cs.takeWhile Char.isDigit, cs.dropWhile Char.isDigit)

/-- A point and digits. -/
def fraction : Stage := fun cs => (fractionChars (scanFraction cs).1, (scanFraction cs).2)

/-- A mark, a sign and digits. -/
def exponent : Stage := fun cs => (exponentChars (Exponent.scan cs).1, (Exponent.scan cs).2)

/-- **A stage is greedy** for a language if it takes at least every word of it that stands at the
start of a text. If the text goes on with a word of what may come next, it takes exactly that. -/
def Greedy (l m : Language Char) (f : Stage) : Prop :=
  ∀ w ∈ l, ∀ v ∈ m, ∀ rest, w.length ≤ (f (w ++ (v ++ rest))).1.length ∧
    (v ≠ [] → f (w ++ (v ++ rest)) = (w, v ++ rest))

/-- Whether the words of a language begin with certain characters only. -/
def Begins (l : Language Char) (p : Char → Prop) : Prop :=
  ∀ v ∈ l, ∀ c, v.head? = some c → p c

variable {l m k : Language Char} {p q : Char → Prop} {f g : Stage}

/-- A product begins as its factors do, the second where the first is empty. -/
theorem Begins.mul (hl : Begins l p) (hm : Begins m p) : Begins (l * m) p := by
  rintro _ ⟨a, ha, b, hb, rfl⟩ c hc
  cases a with
  | nil => exact hm b hb c hc
  | cons d ds => exact hl _ ha c hc

theorem Begins.mono (hl : Begins l p) (h : ∀ c, p c → q c) : Begins l q :=
  fun v hv c hc => h c (hl v hv c hc)

/-- The empty word begins with nothing. -/
theorem begins_one : Begins 1 p := by
  rintro _ rfl c hc
  cases hc

theorem begins_digits : Begins (Grammar.digit∗) (fun c => c.isDigit = true) :=
  fun _ hv c hc => Grammar.mem_digits.mp hv c (List.mem_of_head? hc)

theorem begins_anyFraction : Begins Grammar.anyFraction (fun c => c = '.') := by
  rintro v hv c hc
  obtain ⟨_ | ds, -, rfl⟩ := Grammar.mem_anyFraction.mp hv
  · cases hc
  · exact (Option.some.inj hc).symm

theorem begins_anyExponent : Begins Grammar.anyExponent (fun c => Exponent.isMark c = true) := by
  rintro v hv c hc
  obtain ⟨_ | e, hparts, rfl⟩ := Grammar.mem_anyExponent.mp hv
  · cases hc
  · obtain rfl : e.mark = c := Option.some.inj hc
    exact (hparts e rfl).1

/-- **Stages may be put together**, if each is greedy with a view to all that come after it. -/
theorem Greedy.andThen (hf : Greedy l (m * k) f) (hg : Greedy m k g) :
    Greedy (l * m) k (f.andThen g) := by
  rintro _ ⟨a, ha, b, hb, rfl⟩ v hv rest
  obtain ⟨hleast, hexact⟩ := hf a ha (b ++ v) (Language.append_mem_mul hb hv) rest
  have hassoc : a ++ b ++ (v ++ rest) = a ++ ((b ++ v) ++ rest) := by simp
  rw [hassoc, Stage.andThen]
  by_cases hnil : b ++ v = []
  · obtain ⟨rfl, rfl⟩ := List.append_eq_nil_iff.mp hnil
    refine ⟨?_, fun hne => absurd rfl hne⟩
    dsimp only
    rw [List.append_nil, List.length_append]
    exact Nat.le_add_right_of_le hleast
  · -- the first stage stops where its word ends, and the second goes on from there
    obtain ⟨hmore, hrest⟩ := hg b hb v hv rest
    rw [hexact hnil, List.append_assoc]
    dsimp only
    refine ⟨?_, fun hne => by rw [hrest hne]⟩
    rw [List.length_append, List.length_append]
    exact Nat.add_le_add_left hmore a.length

/-- Only the end of the text comes after the last stage. -/
theorem greedy_one (h : ∀ w ∈ l, ∀ rest, w.length ≤ (f (w ++ rest)).1.length) :
    Greedy l 1 f := by
  rintro w hw _ rfl rest
  exact ⟨h w hw rest, fun hne => absurd rfl hne⟩

/-- Digits are taken up to a character that is none. -/
theorem greedy_digits (hm : Begins m fun c => c.isDigit = false) :
    Greedy (Grammar.digit∗) m digits := by
  intro w hw v hv rest
  have hdigits := Grammar.mem_digits.mp hw
  refine ⟨?_, ?_⟩
  · rw [digits, List.takeWhile_append_of_pos hdigits, List.length_append]
    exact Nat.le_add_right _ _
  · intro hne
    obtain ⟨c, v, rfl⟩ := List.exists_cons_of_ne_nil hne
    have hstop : ∀ d, ((c :: v) ++ rest).head? = some d → d.isDigit = false := by
      rintro _ ⟨⟩
      exact hm _ hv c rfl
    rw [digits, takeWhile_run hdigits hstop, dropWhile_run hdigits hstop]

/-- A sign is taken where there is one, and what comes next is not taken for a sign. -/
theorem greedy_sign (hm : Begins m fun c => Sign.ofChar? c = none) :
    Greedy Grammar.sign m sign := by
  intro w hw v hv rest
  obtain ⟨s, rfl⟩ := Grammar.mem_sign.mp hw
  have hexact : v ≠ [] ∨ s ≠ none →
      Sign.scan (Sign.chars s ++ (v ++ rest)) = (s, v ++ rest) := by
    intro h
    refine Sign.scan_chars s ?_
    rintro hs c hc
    obtain ⟨d, v, rfl⟩ := List.exists_cons_of_ne_nil (h.resolve_right fun hne => hne hs)
    cases hc
    exact hm _ hv c rfl
  refine ⟨?_, fun hne => by rw [sign, hexact (.inl hne)]⟩
  cases s with
  | none => exact Nat.zero_le _
  | some s => rw [sign, hexact (.inr (by simp))]

/-- A fraction ends before an exponent, which begins with neither a digit nor a point. -/
theorem greedy_fraction (hm : Begins m fun c => c.isDigit = false ∧ c ≠ '.') :
    Greedy Grammar.anyFraction m fraction := by
  intro w hw v hv rest
  obtain ⟨f, hf, rfl⟩ := Grammar.mem_anyFraction.mp hw
  refine ⟨?_, ?_⟩
  · cases f with
    | none => exact Nat.zero_le _
    | some ds =>
      have htake : (ds ++ (v ++ rest)).takeWhile Char.isDigit =
          ds ++ (v ++ rest).takeWhile Char.isDigit := List.takeWhile_append_of_pos hf
      simp only [fraction, fractionChars, List.cons_append, scanFraction, htake, List.length_cons,
        List.length_append]
      omega
  · intro hne
    obtain ⟨c, v, rfl⟩ := List.exists_cons_of_ne_nil hne
    have hstop : ∀ d, ((c :: v) ++ rest).head? = some d → d.isDigit = false ∧ d ≠ '.' := by
      rintro _ ⟨⟩
      exact hm _ hv c rfl
    rw [fraction, scanFraction_chars hf hstop]

/-- Nothing comes after an exponent, so it may take all it can. -/
theorem greedy_exponent : Greedy Grammar.anyExponent 1 exponent := by
  refine greedy_one ?_
  intro w hw rest
  obtain ⟨_ | ⟨mark, s, ds⟩, hparts, rfl⟩ := Grammar.mem_anyExponent.mp hw
  · exact Nat.zero_le _
  · obtain ⟨hmark, hds⟩ := hparts _ rfl
    -- what follows the mark is a sign and digits, as at the start of a number
    have hnosign : Begins (Grammar.digit∗ * 1) fun c => Sign.ofChar? c = none :=
      (begins_digits.mono fun _ => Sign.ofChar?_digit).mul begins_one
    have hinner : Greedy (Grammar.sign * Grammar.digit∗) 1 (sign.andThen digits) :=
      (greedy_sign hnosign).andThen (greedy_digits begins_one)
    have hleast := (hinner (Sign.chars s ++ ds) (Language.append_mem_mul
      (Grammar.mem_sign.mpr ⟨s, rfl⟩) (Grammar.mem_digits.mpr hds)) [] rfl rest).1
    rw [List.nil_append] at hleast
    simp only [exponent, exponentChars, Exponent.chars, List.cons_append, Exponent.scan, hmark,
      if_true, List.length_cons]
    exact Nat.succ_le_succ hleast

end Stage

/-- **The longest word of a language** at the start of a text. -/
structure IsLongest (l : Language Char) (text word : List Char) : Prop where
  mem : word ∈ l
  starts : word <+: text
  longest : ∀ other ∈ l, other <+: text → other.length ≤ word.length

/-- The scanner is the stages one after the other. -/
theorem scan_stages (cs : List Char) : ((scan cs).1.chars, (scan cs).2) =
    Stage.andThen .sign (Stage.andThen .digits (Stage.andThen .fraction .exponent)) cs := by
  simp only [scan, chars, Stage.andThen, Stage.sign, Stage.digits, Stage.fraction, Stage.exponent,
    List.append_assoc]

/-- **The stages in their order** are greedy, each with a view to those after it. -/
theorem greedy_scan : Stage.Greedy Grammar.run 1
    (Stage.andThen .sign (Stage.andThen .digits (Stage.andThen .fraction .exponent))) := by
  have hexponent : Stage.Begins (Grammar.anyExponent * 1) fun c => Exponent.isMark c = true :=
    Stage.begins_anyExponent.mul Stage.begins_one
  have hfraction : Stage.Begins (Grammar.anyFraction * Grammar.anyExponent * 1) fun c =>
      c = '.' ∨ Exponent.isMark c = true :=
    ((Stage.begins_anyFraction.mono fun _ => .inl).mul
      (Stage.begins_anyExponent.mono fun _ => .inr)).mul Stage.begins_one
  have hdigits : Stage.Begins (Grammar.digit∗ * (Grammar.anyFraction * Grammar.anyExponent) * 1)
      fun c => c.isDigit = true ∨ c = '.' ∨ Exponent.isMark c = true := by
    rw [mul_assoc]
    exact (Stage.begins_digits.mono fun _ => .inl).mul (hfraction.mono fun _ => .inr)
  refine (Stage.greedy_sign (hdigits.mono ?_)).andThen
    ((Stage.greedy_digits (hfraction.mono ?_)).andThen
      ((Stage.greedy_fraction (hexponent.mono fun _ => not_digit_of_isMark)).andThen
        Stage.greedy_exponent))
  · rintro c (hc | rfl | hc)
    exacts [Sign.ofChar?_digit hc, rfl, ofChar?_of_isMark hc]
  · rintro c (rfl | hc)
    exacts [rfl, (not_digit_of_isMark hc).1]

/-- **The scanner takes the longest start of a number.** -/
theorem scan_longest (cs : List Char) : IsLongest Grammar.run cs (scan cs).1.chars := by
  refine ⟨(Token.proper_numeral_scan cs).chars_mem_run, ⟨(scan cs).2, chars_scan cs⟩, ?_⟩
  rintro other hother ⟨rest, rfl⟩
  have hleast := (greedy_scan other hother [] rfl rest).1
  rw [List.nil_append, ← scan_stages] at hleast
  exact hleast

end DataLisp.Numeral
