/-
Numbers of JSON text are read in two roundings.

A significand that 64 bits hold is rounded, and the result is scaled and rounded again. Two things
are shown of this. The first is that every finite double is read back from the numeral that is
written for it as some finite double of the same sign (`Json.exists_finite?_numeral`). It is not
clear beforehand, as two roundings could carry the greatest doubles beyond the bound: what is read
is at most two units in `2 ^ 53` too great, which leaves all but the last three doubles below it,
and these three are looked at.

The second is when the double itself is read back (`Binary64.ReadsExactly`). Often, but not always:
a numeral of up to fifteen digits with a small power of ten is read as the double nearest to it
(`Json.finite?_of_short`), since then the significand and the power are doubles themselves and only
one rounding is left.
-/
import DataLisp.Json.Number
import DataLisp.Proofs.FiniteDoubles
import DataLisp.Proofs.Numerals

set_option autoImplicit false

namespace DataLisp.Json

/-! ## What is kept of a numeral -/

section TakeDigits

variable {significand : Nat} {digits : List Char}

/-- Each digit moves what stands before it by a place. -/
theorem pow_mul_le_ofDigitChars (digits : List Char) (significand : Nat) :
    10 ^ digits.length * significand ≤ Nat.ofDigitChars 10 digits significand := by
  rw [Nat.ofDigitChars_eq_ofDigitChars_zero]
  exact Nat.le_add_right _ _

theorem le_ofDigitChars (digits : List Char) (significand : Nat) :
    significand ≤ Nat.ofDigitChars 10 digits significand :=
  (Nat.le_mul_of_pos_left _ (by positivity)).trans (pow_mul_le_ofDigitChars digits significand)

/-- A digit at a time, a number grows by less than a place. -/
theorem ofDigitChars_lt (hdigits : ∀ c ∈ digits, c.isDigit = true) (significand : Nat) :
    Nat.ofDigitChars 10 digits significand < 10 ^ digits.length * (significand + 1) := by
  induction digits generalizing significand with
  | nil => simp
  | cons c digits ih =>
    rw [List.forall_mem_cons] at hdigits
    have hc : c.toNat - '0'.toNat ≤ 9 := by
      have hle : c.toNat ≤ '9'.toNat := (Char.isDigit_iff_toNat.mp hdigits.1).2
      have hnine : '9'.toNat = 57 := rfl
      have hzero : '0'.toNat = 48 := rfl
      omega
    rw [Nat.ofDigitChars_cons, List.length_cons]
    calc Nat.ofDigitChars 10 digits (10 * significand + (c.toNat - '0'.toNat))
        < 10 ^ digits.length * (10 * significand + (c.toNat - '0'.toNat) + 1) := ih hdigits.2 _
      _ ≤ 10 ^ digits.length * (10 * (significand + 1)) := Nat.mul_le_mul_left _ (by omega)
      _ = 10 ^ (digits.length + 1) * (significand + 1) := by ring

/-- The digits that are taken are appended, and the others are left over in order. -/
theorem takeDigits_append (significand : Nat) (digits : List Char) :
    ∃ taken, digits = taken ++ (takeDigits significand digits).2 ∧
      (takeDigits significand digits).1 = Nat.ofDigitChars 10 taken significand := by
  induction digits generalizing significand with
  | nil => exact ⟨[], rfl, rfl⟩
  | cons c digits ih =>
    rw [takeDigits]
    split
    · obtain ⟨taken, hsplit, hvalue⟩ := ih (Nat.ofDigitChars 10 [c] significand)
      refine ⟨c :: taken, ?_, ?_⟩
      · rw [List.cons_append, ← hsplit]
      · rw [hvalue, Nat.ofDigitChars_cons, Nat.ofDigitChars_cons, Nat.ofDigitChars_nil]
    · exact ⟨[], rfl, rfl⟩

/-- A significand never outgrows 64 bits. -/
theorem takeDigits_lt (h : significand < UInt64.size) (digits : List Char) :
    (takeDigits significand digits).1 < UInt64.size := by
  induction digits generalizing significand with
  | nil => exact h
  | cons c digits ih =>
    rw [takeDigits]
    split
    · rename_i hnext
      exact ih hnext
    · exact h

/-- Where 64 bits hold all digits, nothing is left over. -/
theorem takeDigits_of_lt (h : Nat.ofDigitChars 10 digits significand < UInt64.size) :
    takeDigits significand digits = (Nat.ofDigitChars 10 digits significand, []) := by
  induction digits generalizing significand with
  | nil => rfl
  | cons c digits ih =>
    have hsplit : Nat.ofDigitChars 10 (c :: digits) significand =
        Nat.ofDigitChars 10 digits (Nat.ofDigitChars 10 [c] significand) := by
      rw [Nat.ofDigitChars_cons, Nat.ofDigitChars_cons, Nat.ofDigitChars_nil]
    rw [hsplit] at h ⊢
    -- the digits that follow only make the number greater
    have hnext : Nat.ofDigitChars 10 [c] significand < UInt64.size :=
      lt_of_le_of_lt (le_ofDigitChars digits _) h
    rw [takeDigits, if_pos hnext, ih h]

theorem takeDigits_of_length_le (hdigits : ∀ c ∈ digits, c.isDigit = true)
    (hlength : digits.length ≤ 19) : (takeDigits 0 digits).2 = [] := by
  have hlt : Nat.ofDigitChars 10 digits 0 < UInt64.size :=
    calc Nat.ofDigitChars 10 digits 0 < 10 ^ digits.length * (0 + 1) := ofDigitChars_lt hdigits 0
      _ ≤ 10 ^ 19 * 1 := Nat.mul_le_mul_right _ (Nat.pow_le_pow_right (by decide) hlength)
      _ < UInt64.size := by decide
  rw [takeDigits_of_lt hlt]

end TakeDigits

section Held

variable {n : Numeral}

theorem digits_held_lt (n : Numeral) : (held n).digits < UInt64.size :=
  takeDigits_lt (takeDigits_lt (by decide) _) _

/-- **Nothing is lost of a numeral whose digits 64 bits hold.** -/
theorem held_of_lt (h : n.mantissa < UInt64.size) : held n = n.decimal := by
  have hsplit : n.mantissa = Nat.ofDigitChars 10 (n.fraction.getD [])
      (Nat.ofDigitChars 10 n.whole 0) := by
    rw [Numeral.mantissa, Numeral.digits, Nat.ofDigitChars_append]
  rw [hsplit] at h
  have hwhole : Nat.ofDigitChars 10 n.whole 0 < UInt64.size :=
    lt_of_le_of_lt (le_ofDigitChars _ _) h
  rw [held, takeDigits_of_lt hwhole]
  dsimp only
  rw [takeDigits_of_lt h, Numeral.decimal, Numeral.scale, hsplit]
  simp

/-- **What is kept is no greater than the numeral**, the digits after the point that are left over
being cut off. -/
theorem value_held_le (h : (takeDigits 0 n.whole).2 = []) : (held n).value ≤ n.decimal.value := by
  obtain ⟨whole, hwhole, hwholeValue⟩ := takeDigits_append 0 n.whole
  rw [h, List.append_nil] at hwhole
  obtain ⟨taken, hsplit, htaken⟩ := takeDigits_append (takeDigits 0 n.whole).1 (n.fraction.getD [])
  generalize hleft : (takeDigits (takeDigits 0 n.whole).1 (n.fraction.getD [])).2 = left at hsplit
  have hdigits : 10 ^ left.length * (held n).digits ≤ n.mantissa := by
    rw [Numeral.mantissa, Numeral.digits, hsplit, Nat.ofDigitChars_append, Nat.ofDigitChars_append,
      hwhole, ← hwholeValue, ← htaken]
    exact pow_mul_le_ofDigitChars left _
  have hscale : (held n).scale = left.length + n.scale := by
    simp only [held, h, hleft, Numeral.scale, List.length_nil]
    omega
  rw [Decimal.value, Decimal.value, hscale, zpow_add₀ (by norm_num), zpow_natCast, ← mul_assoc,
    mul_comm ((held n).digits : ℚ)]
  refine mul_le_mul_of_nonneg_right ?_ (zpow_nonneg (by norm_num) _)
  exact_mod_cast hdigits

end Held

/-! ## Scaling -/

section Scaling

variable {x y : Binary64} {k : Nat}

theorem isFinite_of_isZero (hx : x.isZero = true) : x.isFinite = true := by
  have hmagnitude : x.magnitude = 0 := of_decide_eq_true hx
  simp only [Binary64.isFinite, hmagnitude]
  decide

theorem scaleUp?_of_le (hk : k ≤ maxPower) (x : Binary64) :
    scaleUp? x k = if (x.mul (.ofPowerOfTen k)).isFinite = true then
      some (x.mul (.ofPowerOfTen k)) else none := by
  rw [scaleUp?, if_pos hk]

theorem isFinite_scaleUp? (h : scaleUp? x k = some y) : y.isFinite = true := by
  unfold scaleUp? at h
  dsimp only at h
  split_ifs at h with hk hfinite hzero
  · cases h
    exact hfinite
  · cases h
    exact isFinite_of_isZero hzero

/-- Nothing becomes infinite by a division. -/
theorem isFinite_scaleDown (hx : x.isFinite = true) (k : Nat) :
    (scaleDown x k).isFinite = true := by
  fun_induction scaleDown x k with
  | case1 x k hk => exact Binary64.isFinite_div hx (Binary64.one_le_value_ofPowerOfTen hk)
  | case2 x k hk hzero => exact hx
  | case3 x k hk hzero ih =>
    exact ih (Binary64.isFinite_div hx (Binary64.one_le_value_ofPowerOfTen le_rfl))

end Scaling

theorem finite?_of_nonneg {n : Numeral} (h : 0 ≤ (held n).scale) :
    finite? n = (scaleUp? (.ofQuotient false (held n).digits 1) (held n).scale.natAbs).map
      fun y => { y with negative := n.negative } := by
  rw [finite?, if_pos h, show (held n).scale.toNat = (held n).scale.natAbs by omega]

theorem finite?_of_neg {n : Numeral} (h : (held n).scale < 0) :
    finite? n = some { scaleDown (.ofQuotient false (held n).digits 1) (held n).scale.natAbs with
      negative := n.negative } := by
  rw [finite?, if_neg (not_le.mpr h), Option.map_some]

/-- **What is read is finite** and has the sign of the numeral. -/
theorem isFinite_of_finite? {n : Numeral} {x : Binary64} (h : finite? n = some x) :
    x.isFinite = true ∧ x.negative = n.negative := by
  rcases lt_or_ge (held n).scale 0 with hneg | hpos
  · rw [finite?_of_neg hneg] at h
    cases h
    exact ⟨isFinite_scaleDown (Binary64.isFinite_ofQuotient_one (digits_held_lt n)) _, rfl⟩
  · rw [finite?_of_nonneg hpos] at h
    obtain ⟨y, hy, rfl⟩ := Option.map_eq_some_iff.mp h
    have hfinite : y.isFinite = true := isFinite_scaleUp? hy
    exact ⟨hfinite, rfl⟩

/-! ## Everything that is written is read -/

/-- The last three finite doubles of a sign. -/
def lastThree (negative : Bool) (k : Fin 3) : Binary64 where
  negative := negative
  magnitude := Binary64.infinityMagnitude - 3 + k
  magnitude_lt := by
    have hinfinity := Binary64.infinityMagnitude_lt
    have hgreat : 3 ≤ Binary64.infinityMagnitude := by decide
    omega

theorem value_lastThree : (lastThree false 0).value = (2 ^ 53 - 3) * (2 : ℚ) ^ (971 : Int) := by
  have hvalue : (lastThree false 0).value = ((2 ^ 53 - 3 : ℕ) : ℚ) * (2 : ℚ) ^ (971 : Int) :=
    Binary64.value_of_magnitude (by decide) (.inl (by decide)) (by decide) (by decide)
  rw [hvalue]
  norm_num

/-- Below them there is room for the errors of two factors. -/
theorem lastThree_lt_overflow :
    (1 + 1 / 2 ^ 53) * (1 + 1 / 2 ^ 53) * (lastThree false 0).value < Binary64.overflow := by
  rw [value_lastThree, Binary64.overflow_eq, ← mul_assoc, mul_div_right_comm]
  refine mul_lt_mul_of_pos_right ?_ (zpow_pos (by norm_num) _)
  norm_num

/-- Scaling a zero by any power of ten gives a zero. -/
theorem exists_scaleUp?_of_isZero {x : Binary64} (hx : x.isZero = true) (k : Nat) :
    ∃ y, scaleUp? x k = some y := by
  by_cases hk : k ≤ maxPower
  · have hvalue : x.value = 0 := Binary64.value_of_magnitude_eq_zero (of_decide_eq_true hx)
    have hfinite : (x.mul (.ofPowerOfTen k)).isFinite = true := by
      apply Binary64.isFinite_mul
      rw [hvalue, zero_mul]
      exact lt_trans one_pos Binary64.one_lt_overflow
    exact ⟨_, (scaleUp?_of_le hk x).trans (if_pos hfinite)⟩
  · rw [scaleUp?, if_neg hk, if_pos hx]
    exact ⟨x, rfl⟩

/-- **A decimal below the last three doubles can be scaled.** -/
theorem exists_scaleUp? {digits k : Nat} (hdigits : digits < UInt64.size)
    (h : (digits : ℚ) * 10 ^ k < (lastThree false 0).value) :
    ∃ y, scaleUp? (.ofQuotient false digits 1) k = some y := by
  rcases Nat.eq_zero_or_pos digits with rfl | hpos
  · exact exists_scaleUp?_of_isZero rfl k
  have hone : (1 : ℚ) ≤ digits := by exact_mod_cast hpos
  have hk : k ≤ maxPower := by
    by_contra hgreat
    have hgreat : 309 ≤ k := Nat.lt_of_not_le hgreat
    have hlt : (10 : ℚ) ^ 309 < Binary64.overflow :=
      calc (10 : ℚ) ^ 309 ≤ 10 ^ k := pow_le_pow_right₀ (by norm_num) hgreat
        _ = 1 * 10 ^ k := (one_mul _).symm
        _ ≤ digits * 10 ^ k := mul_le_mul_of_nonneg_right hone (by positivity)
        _ < (lastThree false 0).value := h
        _ < Binary64.overflow := Binary64.value_lt_overflow rfl
    exact absurd Binary64.overflow_lt_tenTo (not_lt.mpr hlt.le)
  have hfinite := Binary64.isFinite_ofQuotient_one hdigits
  have hproduct : (Binary64.ofQuotient false digits 1).value * (Binary64.ofPowerOfTen k).value
      < Binary64.overflow :=
    calc (Binary64.ofQuotient false digits 1).value * (Binary64.ofPowerOfTen k).value
        ≤ (1 + 1 / 2 ^ 53) * digits * ((1 + 1 / 2 ^ 53) * 10 ^ k) :=
          mul_le_mul (Binary64.value_ofQuotient_one_le hfinite)
            (Binary64.value_ofPowerOfTen_le hk) (Binary64.value_nonneg _) (by positivity)
      _ = (1 + 1 / 2 ^ 53) * (1 + 1 / 2 ^ 53) * (digits * 10 ^ k) := by ring
      _ ≤ (1 + 1 / 2 ^ 53) * (1 + 1 / 2 ^ 53) * (lastThree false 0).value :=
          mul_le_mul_of_nonneg_left h.le (by positivity)
      _ < Binary64.overflow := lastThree_lt_overflow
  exact ⟨_, (scaleUp?_of_le hk _).trans (if_pos (Binary64.isFinite_mul hproduct))⟩

/-- So a numeral below them is read, if the significand has room for its whole part. -/
theorem exists_finite?_of_lt {n : Numeral} (hwhole : (takeDigits 0 n.whole).2 = [])
    (h : n.decimal.value < (lastThree false 0).value) : ∃ x, finite? n = some x := by
  have hheld := lt_of_le_of_lt (value_held_le hwhole) h
  rcases lt_or_ge (held n).scale 0 with hneg | hpos
  · exact ⟨_, finite?_of_neg hneg⟩
  · rw [Decimal.value, ← Int.natAbs_of_nonneg hpos, zpow_natCast] at hheld
    obtain ⟨y, hy⟩ := exists_scaleUp? (digits_held_lt n) hheld
    rw [finite?_of_nonneg hpos, hy]
    exact ⟨_, rfl⟩

/-- The digits before the point of a number in JSON text are few. -/
theorem length_whole_numeral {x : Binary64} (hx : x.isFinite = true) :
    (Notation.json.numeral x).whole.length ≤ 16 := by
  cases hzero : x.isZero with
  | true =>
    rw [Notation.numeral_of_isZero _ hzero]
    exact Nat.le_add_left 1 15
  | false =>
    have hdigits := Notation.shortestDigits_ne_nil Notation.json hx hzero
    cases hk : Notation.json.isPositional (Notation.json.shortestPoint x) with
    | true =>
      have hhigh : decide (Notation.json.shortestPoint x ≤ 16) = true :=
        (Bool.and_eq_true_iff.mp hk).2
      have hbound := of_decide_eq_true hhigh
      rw [Notation.numeral_of_isPositional _ hzero hk]
      rcases Notation.positional_cases Notation.json hdigits (Notation.json.shortestPoint x) with
        ⟨-, hplace⟩ | ⟨-, -, hplace⟩ | ⟨hle, hplace⟩
      · rw [hplace]
        exact Nat.le_add_left 1 15
      · rw [hplace, List.length_take]
        omega
      · rw [hplace, List.length_append, List.length_replicate]
        omega
    | false =>
      rw [Notation.numeral_of_not_isPositional _ hzero hk, List.length_take]
      omega

/-- The last three doubles of either sign are read from what is written for them. -/
theorem exists_finite?_lastThree (negative : Bool) (k : Fin 3) :
    ∃ y, finite? (Notation.json.numeral (lastThree negative k)) = some y := by
  rw [← Option.isSome_iff_exists]
  revert negative k
  decide +kernel

/-- **Every finite double can be read from what is written for it.** -/
theorem exists_finite?_numeral {x : Binary64} (hx : x.isFinite = true) :
    ∃ y, finite? (Notation.json.numeral x) = some y := by
  have hback := Notation.toBinary64_numeral Notation.json hx
  have hfinite : x.magnitude < Binary64.infinityMagnitude := of_decide_eq_true hx
  by_cases hnear : x.magnitude < Binary64.infinityMagnitude - 3
  · apply exists_finite?_of_lt
    · exact takeDigits_of_length_le (Notation.proper_numeral Notation.json hx).whole
        ((length_whole_numeral hx).trans (by decide))
    · by_contra hvalue
      have hle := Binary64.le_magnitude_ofDecimal (Notation.json.numeral x).negative
        (y := lastThree false 0) rfl (not_lt.mp hvalue)
      have hmagnitude : (Binary64.ofDecimal (Notation.json.numeral x).negative
          (Notation.json.numeral x).decimal.digits
          (Notation.json.numeral x).decimal.scale).magnitude = x.magnitude :=
        congrArg Binary64.magnitude hback
      rw [hmagnitude] at hle
      exact absurd hnear (Nat.not_lt.mpr hle)
  · obtain ⟨k, hk⟩ : ∃ k : Fin 3, x.magnitude = Binary64.infinityMagnitude - 3 + k :=
      ⟨⟨x.magnitude - (Binary64.infinityMagnitude - 3), by omega⟩, by dsimp only; omega⟩
    have hx : x = lastThree x.negative k := by
      cases x
      simp only [lastThree, Binary64.mk.injEq, true_and]
      exact hk
    rw [hx]
    exact exists_finite?_lastThree _ k

/-! ## What is read back exactly -/

section Short

variable {n : Numeral}

/-- The sign, which neither rounding looks at, is that of the numeral. -/
theorem withSign_eq_toBinary64 {y : Binary64} (h : n.toBinary64.magnitude = y.magnitude) :
    { y with negative := n.negative } = n.toBinary64 := by
  have hnegative : n.toBinary64.negative = n.negative := Binary64.negative_ofDecimal _ _ _
  obtain ⟨negative, magnitude, hlt⟩ := y
  dsimp only at h ⊢
  subst h
  rw [← hnegative]

/-- The double nearest to a short numeral is rounded from any quotient of its value. -/
theorem magnitude_toBinary64_of_short {negative : Bool} {num den : Nat}
    (hdigits : n.mantissa < 2 ^ 53) (hscale : n.scale.natAbs ≤ 22) (hden : 0 < den)
    (hvalue : (num : ℚ) / den = n.mantissa * (10 : ℚ) ^ n.scale) :
    n.toBinary64.magnitude = (Binary64.ofQuotient negative num den).magnitude := by
  have hlength : Binary64.decimalLength n.mantissa ≤ 16 :=
    (Nat.length_toDigits_le_iff (by decide) (by decide)).mpr (lt_trans hdigits (by decide))
  refine Binary64.magnitude_ofDecimal (d := n.decimal) hden hvalue ?_ ?_
  · dsimp only [Numeral.decimal]
    omega
  · dsimp only [Numeral.decimal]
    omega

/-- Scaling a short significand up by a little stays far below the bound. -/
theorem scaleUp?_of_short {digits k : Nat} (hdigits : digits < 2 ^ 53) (hk : k ≤ 22) :
    scaleUp? (.ofQuotient false digits 1) k =
      some ((Binary64.ofQuotient false digits 1).mul (.ofPowerOfTen k)) := by
  have hsmall : digits * 10 ^ k ≤ 10 ^ 308 :=
    calc digits * 10 ^ k ≤ 2 ^ 53 * 10 ^ 22 :=
          Nat.mul_le_mul hdigits.le (Nat.pow_le_pow_right (by decide) hk)
      _ ≤ 10 ^ 308 := by decide +kernel
  have hfinite : ((Binary64.ofQuotient false digits 1).mul (.ofPowerOfTen k)).isFinite = true := by
    apply Binary64.isFinite_mul
    rw [Binary64.value_ofQuotient_one hdigits, Binary64.value_ofPowerOfTen hk]
    exact lt_of_le_of_lt (by exact_mod_cast hsmall) Binary64.tenTo_lt_overflow
  rw [scaleUp?_of_le (hk.trans (by decide)), if_pos hfinite]

/-- **A short numeral with a small power of ten is read as the double nearest to it.** Its digits
and the power of ten are doubles, so nothing is rounded before they meet. -/
theorem finite?_of_short (hdigits : n.mantissa < 2 ^ 53) (hscale : n.scale.natAbs ≤ 22) :
    finite? n = some n.toBinary64 := by
  have hheld : held n = n.decimal := held_of_lt (hdigits.trans (by decide))
  have hkept : (held n).digits = n.mantissa := congrArg Decimal.digits hheld
  have hplace : (held n).scale = n.scale := congrArg Decimal.scale hheld
  have hsignificand := Binary64.value_ofQuotient_one hdigits
  have hpower := Binary64.value_ofPowerOfTen hscale
  have htable : n.scale.natAbs ≤ maxPower := hscale.trans (by decide)
  rcases lt_or_ge n.scale 0 with hneg | hpos
  · have hten : (10 : ℚ) ^ n.scale = 1 / 10 ^ n.scale.natAbs := by
      rw [show n.scale = -(n.scale.natAbs : Int) by omega, zpow_neg, zpow_natCast, one_div,
        Int.natAbs_neg, Int.natAbs_natCast]
    have hden := Binary64.numerator_pos (Binary64.one_le_value_ofPowerOfTen htable)
    rw [finite?_of_neg (hplace ▸ hneg), hkept, hplace, scaleDown, if_pos htable,
      withSign_eq_toBinary64]
    apply magnitude_toBinary64_of_short hdigits hscale
      (Nat.mul_pos (Binary64.denominator_pos _) hden)
    rw [Binary64.fraction_div, hsignificand, hpower, hten, mul_one_div]
  · have hten : (10 : ℚ) ^ n.scale = 10 ^ n.scale.natAbs := by
      rw [← zpow_natCast, Int.natAbs_of_nonneg hpos]
    rw [finite?_of_nonneg (hplace ▸ hpos), hkept, hplace, scaleUp?_of_short hdigits hscale,
      Option.map_some, withSign_eq_toBinary64]
    apply magnitude_toBinary64_of_short hdigits hscale
      (Nat.mul_pos (Binary64.denominator_pos _) (Binary64.denominator_pos _))
    rw [Binary64.fraction_mul, hsignificand, hpower, hten]

end Short

end DataLisp.Json

namespace DataLisp.Binary64

/-- A finite double that is read back from the numeral that JSON text has for it. -/
def ReadsExactly (x : Binary64) : Prop :=
  x.isFinite = true → Json.finite? (Notation.json.numeral x) = some x

instance (x : Binary64) : Decidable x.ReadsExactly :=
  inferInstanceAs (Decidable (_ → _))

/-- **Doubles with short numerals are read back.** -/
theorem readsExactly_of_short {x : Binary64}
    (hdigits : (Notation.json.numeral x).mantissa < 2 ^ 53)
    (hscale : (Notation.json.numeral x).scale.natAbs ≤ 22) : x.ReadsExactly := by
  intro hx
  rw [Json.finite?_of_short hdigits hscale, Notation.toBinary64_numeral _ hx]

/-- The double that is written `1e-23` is read as its upper neighbour. -/
example : Json.finite? (Notation.json.numeral ⟨false, 0x3B282DB34012B251, by decide⟩) =
    some ⟨false, 0x3B282DB34012B252, by decide⟩ := by
  decide +kernel

end DataLisp.Binary64
