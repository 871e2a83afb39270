/-
Rounding depends on the value alone, and leaves doubles where they are.

A decimal is rounded in three moves: the number of its digits tells whether it is far
out, its quotient is placed in a binade, and the quotient by the unit of that binade is
rounded to an integer. Every one of these is a function of the rational that the decimal
denotes, although each of them is computed from the digits. That is the first half of
this file: two decimals of one value round to one double.

The second half is that a decimal which denotes a double exactly rounds to it. Here the
binade is known from the exponent bits, the quotient by its unit is the significand, and
nothing is left to round. The number of digits stays within the range that `ofDecimal`
looks into, because a finite double lies between two powers of ten.

Together they say of any text for a double that it reads back: it is enough that its
decimal has the same value as one that is known to read back.
-/
import Mathlib.Algebra.Order.Field.Power
import Mathlib.Data.Int.Log
import Mathlib.Data.Rat.Floor
import Mathlib.Tactic.FieldSimp
import Mathlib.Tactic.Linarith
import Mathlib.Tactic.NormNum
import Mathlib.Tactic.Positivity
import Mathlib.Tactic.Ring
import DataLisp.Binary64.Shortest

set_option autoImplicit false

namespace DataLisp

/-! ## Powers with an integer exponent

The definitions split a power into the two natural powers of its positive and its
negative part, so as to stay with natural numbers. -/

theorem twoTo_div_twoTo (k : Int) :
    ((twoTo k.toNat : ℚ) / twoTo (-k).toNat) = (2 : ℚ) ^ k := by
  simp only [twoTo, Nat.pow_eq, Nat.cast_pow, Nat.cast_ofNat]
  rw [← zpow_natCast, ← zpow_natCast, ← zpow_sub₀ (by norm_num)]
  congr 1
  omega

theorem tenTo_div_tenTo (k : Int) :
    ((tenTo k.toNat : ℚ) / tenTo (-k).toNat) = (10 : ℚ) ^ k := by
  simp only [tenTo, Nat.pow_eq, Nat.cast_pow, Nat.cast_ofNat]
  rw [← zpow_natCast, ← zpow_natCast, ← zpow_sub₀ (by norm_num)]
  congr 1
  omega

/-- Two neighbouring powers determine the logarithm of what lies between them. -/
theorem log_eq_of_zpow {b : ℕ} (hb : 1 < b) {q : ℚ} (hq : 0 < q) {k : Int}
    (hlow : (b : ℚ) ^ k ≤ q) (hhigh : q < (b : ℚ) ^ (k + 1)) : Int.log b q = k := by
  have hle : k ≤ Int.log b q := (Int.zpow_le_iff_le_log hb hq).mp hlow
  have hlt : Int.log b q < k + 1 := (Int.lt_zpow_iff_log_lt hb hq).mp hhigh
  omega

namespace Binary64

/-! ## Rounding a quotient -/

theorem roundQuotient_mul_right (num den : Nat) {c : Nat} (hc : 0 < c) :
    roundQuotient (num * c) (den * c) = roundQuotient num den := by
  have htwice : 2 * (num % den * c) = 2 * (num % den) * c := by rw [Nat.mul_assoc]
  simp only [roundQuotient, Nat.mul_div_mul_right _ _ hc, Nat.mul_mod_mul_right, htwice,
    Nat.mul_lt_mul_right hc]

/-- Equal quotients round to one integer. -/
theorem roundQuotient_congr {num den num' den' : Nat} (hd : 0 < den) (hd' : 0 < den')
    (h : num * den' = num' * den) : roundQuotient num den = roundQuotient num' den' := by
  rw [← roundQuotient_mul_right num den hd', h, Nat.mul_comm den den',
    roundQuotient_mul_right num' den' hd]

theorem roundQuotient_mul_self (n : Nat) {den : Nat} (hd : 0 < den) :
    roundQuotient (n * den) den = n := by
  rw [roundQuotient, Nat.mul_div_cancel _ hd, Nat.mul_mod_left]
  simp only [Nat.mul_zero, if_pos hd]

/-! ## The binade -/

/-- The test by which the binade is corrected compares the quotient with a power of two. -/
theorem mul_twoTo_le_iff {num den : Nat} (hd : 0 < den) (k : Int) :
    den * twoTo k.toNat ≤ num * twoTo (-k).toNat ↔ (2 : ℚ) ^ k ≤ (num : ℚ) / den := by
  have hden : (0 : ℚ) < den := by exact_mod_cast hd
  have hpow : (0 : ℚ) < twoTo (-k).toNat := by exact_mod_cast twoTo_pos _
  rw [← twoTo_div_twoTo, div_le_div_iff₀ hpow hden, mul_comm ((twoTo k.toNat : ℕ) : ℚ)]
  exact_mod_cast Iff.rfl

theorem zpow_log2_le {n : Nat} (hn : 0 < n) :
    (2 : ℚ) ^ (n.log2 : Int) ≤ n ∧ (n : ℚ) < (2 : ℚ) ^ ((n.log2 : Int) + 1) := by
  have hlow : 2 ^ n.log2 ≤ n := Nat.log2_self_le (by omega)
  have hhigh : n < 2 ^ (n.log2 + 1) := Nat.lt_log2_self
  constructor
  · rw [zpow_natCast]
    exact_mod_cast hlow
  · rw [show ((n.log2 : Int) + 1) = ((n.log2 + 1 : ℕ) : Int) by push_cast; rfl, zpow_natCast]
    exact_mod_cast hhigh

/-- The binade of a quotient is its binary logarithm. -/
theorem binade_eq_log {num den : Nat} (hn : 0 < num) (hd : 0 < den) :
    binade num den = Int.log 2 ((num : ℚ) / den) := by
  have hnum : (0 : ℚ) < num := by exact_mod_cast hn
  have hden : (0 : ℚ) < den := by exact_mod_cast hd
  have hq : (0 : ℚ) < (num : ℚ) / den := div_pos hnum hden
  obtain ⟨hn₁, hn₂⟩ := zpow_log2_le hn
  obtain ⟨hd₁, hd₂⟩ := zpow_log2_le hd
  -- the orders of numerator and denominator leave two candidates
  have hlow : (num.log2 : Int) - den.log2 - 1 ≤ Int.log 2 ((num : ℚ) / den) := by
    rw [← Int.zpow_le_iff_le_log (by decide) hq, le_div_iff₀ hden, Nat.cast_ofNat]
    calc (2 : ℚ) ^ ((num.log2 : Int) - den.log2 - 1) * den
        ≤ (2 : ℚ) ^ ((num.log2 : Int) - den.log2 - 1) * (2 : ℚ) ^ ((den.log2 : Int) + 1) := by
          gcongr
      _ = (2 : ℚ) ^ (num.log2 : Int) := by
          rw [← zpow_add₀ (by norm_num)]
          congr 1
          ring
      _ ≤ num := hn₁
  have hhigh : Int.log 2 ((num : ℚ) / den) < (num.log2 : Int) - den.log2 + 1 := by
    rw [← Int.lt_zpow_iff_log_lt (by decide) hq, div_lt_iff₀ hden, Nat.cast_ofNat]
    calc (num : ℚ) < (2 : ℚ) ^ ((num.log2 : Int) + 1) := hn₂
      _ = (2 : ℚ) ^ ((num.log2 : Int) - den.log2 + 1) * (2 : ℚ) ^ (den.log2 : Int) := by
          rw [← zpow_add₀ (by norm_num)]
          congr 1
          ring
      _ ≤ (2 : ℚ) ^ ((num.log2 : Int) - den.log2 + 1) * den := by
          gcongr
  have htest := @mul_twoTo_le_iff num den hd ((num.log2 : Int) - den.log2)
  rw [show (2 : ℚ) = ((2 : ℕ) : ℚ) by norm_num, Int.zpow_le_iff_le_log (by decide) hq] at htest
  -- and the test decides between them
  simp only [binade]
  split
  · rename_i hle
    have := htest.mp hle
    omega
  · rename_i hnot
    have : ¬ (num.log2 : Int) - den.log2 ≤ Int.log 2 ((num : ℚ) / den) :=
      fun h => hnot (htest.mpr h)
    omega

theorem binade_congr {num den num' den' : Nat} (hn : 0 < num) (hd : 0 < den) (hn' : 0 < num')
    (hd' : 0 < den') (h : num * den' = num' * den) : binade num den = binade num' den' := by
  have hden : (den : ℚ) ≠ 0 := by exact_mod_cast hd.ne'
  have hden' : (den' : ℚ) ≠ 0 := by exact_mod_cast hd'.ne'
  rw [binade_eq_log hn hd, binade_eq_log hn' hd']
  congr 1
  rw [div_eq_div_iff hden hden']
  exact_mod_cast h

/-! ## Rounding depends on the value -/

/-- Equal quotients round to one magnitude. -/
theorem nearestMagnitude_congr {num den num' den' : Nat} (hn : 0 < num) (hd : 0 < den)
    (hn' : 0 < num') (hd' : 0 < den') (h : num * den' = num' * den) :
    nearestMagnitude num den = nearestMagnitude num' den' := by
  simp only [nearestMagnitude, binade_congr hn hd hn' hd' h]
  generalize max (binade num' den') (-1022) - 52 = unit
  congr 2
  apply roundQuotient_congr (Nat.mul_pos hd (twoTo_pos _)) (Nat.mul_pos hd' (twoTo_pos _))
  calc num * twoTo (-unit).toNat * (den' * twoTo unit.toNat)
      = num * den' * (twoTo (-unit).toNat * twoTo unit.toNat) := by ring
    _ = num' * den * (twoTo (-unit).toNat * twoTo unit.toNat) := by rw [h]
    _ = num' * twoTo (-unit).toNat * (den * twoTo unit.toNat) := by ring

/-- Equal quotients round to one double. -/
theorem ofQuotient_congr (negative : Bool) {num den num' den' : Nat} (hn : 0 < num) (hd : 0 < den)
    (hn' : 0 < num') (hd' : 0 < den') (h : num * den' = num' * den) :
    ofQuotient negative num den = ofQuotient negative num' den' := by
  simp only [ofQuotient, if_neg hn.ne', if_neg hn'.ne', nearestMagnitude_congr hn hd hn' hd' h]

end Binary64

/-! ## Decimals -/

namespace Decimal

/-- The rational that a decimal denotes. -/
def value (d : Decimal) : ℚ := d.digits * (10 : ℚ) ^ d.scale

theorem value_eq_zero_iff (d : Decimal) : d.value = 0 ↔ d.digits = 0 := by
  have hpow : (10 : ℚ) ^ d.scale ≠ 0 := zpow_ne_zero _ (by norm_num)
  rw [value, mul_eq_zero, or_iff_left hpow, Nat.cast_eq_zero]

theorem value_pos {d : Decimal} (h : d.digits ≠ 0) : 0 < d.value := by
  have hdigits : (0 : ℚ) < d.digits := by exact_mod_cast Nat.pos_of_ne_zero h
  exact mul_pos hdigits (zpow_pos (by norm_num) _)

/-- The value as the quotient from which it is rounded. -/
theorem value_eq_div (d : Decimal) :
    d.value = ((d.digits * tenTo d.scale.toNat : ℕ) : ℚ) / (tenTo (-d.scale).toNat : ℕ) := by
  rw [value, ← tenTo_div_tenTo]
  push_cast
  ring

end Decimal

namespace Binary64

theorem decimalLength_eq_log {n : Nat} (hn : 0 < n) : decimalLength n = Nat.log 10 n + 1 := by
  apply le_antisymm
  · rw [decimalLength, Nat.length_toDigits_le_iff (by decide) (by omega)]
    exact Nat.lt_pow_succ_log_self (by decide) n
  · by_contra hlt
    have hle : decimalLength n ≤ Nat.log 10 n := by omega
    have hpos : 0 < decimalLength n := Nat.length_toDigits_pos
    have hbound : n < 10 ^ Nat.log 10 n :=
      (Nat.length_toDigits_le_iff (by decide) (by omega)).mp hle
    exact absurd (Nat.pow_log_le_self 10 hn.ne') (by omega)

/-- The order of a decimal, digits and scale together, is the logarithm of its value and
one. -/
theorem order_eq_log {d : Decimal} (h : d.digits ≠ 0) :
    (decimalLength d.digits : Int) + d.scale = Int.log 10 d.value + 1 := by
  have hpos : 0 < d.digits := Nat.pos_of_ne_zero h
  have hpow : (0 : ℚ) < (10 : ℚ) ^ d.scale := zpow_pos (by norm_num) _
  have hlow : ((10 ^ Nat.log 10 d.digits : ℕ) : ℚ) ≤ d.digits := by
    exact_mod_cast Nat.pow_log_le_self 10 h
  have hhigh : (d.digits : ℚ) < ((10 ^ (Nat.log 10 d.digits + 1) : ℕ) : ℚ) := by
    exact_mod_cast Nat.lt_pow_succ_log_self (by decide) d.digits
  have hlog : Int.log 10 d.value = (Nat.log 10 d.digits : Int) + d.scale := by
    apply log_eq_of_zpow (by decide) (Decimal.value_pos h)
    · calc ((10 : ℕ) : ℚ) ^ ((Nat.log 10 d.digits : Int) + d.scale)
          = ((10 ^ Nat.log 10 d.digits : ℕ) : ℚ) * (10 : ℚ) ^ d.scale := by
            push_cast
            rw [zpow_add₀ (by norm_num), zpow_natCast]
        _ ≤ d.value := by
            rw [Decimal.value]
            gcongr
    · calc d.value < ((10 ^ (Nat.log 10 d.digits + 1) : ℕ) : ℚ) * (10 : ℚ) ^ d.scale := by
            rw [Decimal.value]
            gcongr
        _ = ((10 : ℕ) : ℚ) ^ ((Nat.log 10 d.digits : Int) + d.scale + 1) := by
            push_cast
            rw [← zpow_natCast, ← zpow_add₀ (by norm_num)]
            congr 1
            push_cast
            ring
  rw [hlog, decimalLength_eq_log hpos]
  push_cast
  ring

/-- **Two decimals of one value round to one double.** -/
theorem ofDecimal_congr (negative : Bool) {d e : Decimal} (h : d.value = e.value) :
    ofDecimal negative d.digits d.scale = ofDecimal negative e.digits e.scale := by
  have hzero : d.digits = 0 ↔ e.digits = 0 := by
    rw [← Decimal.value_eq_zero_iff, ← Decimal.value_eq_zero_iff, h]
  by_cases hd : d.digits = 0
  · rw [ofDecimal, ofDecimal, if_pos hd, if_pos (hzero.mp hd)]
  · have he : e.digits ≠ 0 := fun he => hd (hzero.mpr he)
    -- both are cut off, or neither is
    have horder : (decimalLength d.digits : Int) + d.scale = decimalLength e.digits + e.scale := by
      rw [order_eq_log hd, order_eq_log he, h]
    have hquotient : ofQuotient negative (d.digits * tenTo d.scale.toNat) (tenTo (-d.scale).toNat)
        = ofQuotient negative (e.digits * tenTo e.scale.toNat) (tenTo (-e.scale).toNat) := by
      apply ofQuotient_congr negative (Nat.mul_pos (Nat.pos_of_ne_zero hd) (tenTo_pos _))
        (tenTo_pos _) (Nat.mul_pos (Nat.pos_of_ne_zero he) (tenTo_pos _)) (tenTo_pos _)
      have hd' : ((tenTo (-d.scale).toNat : ℕ) : ℚ) ≠ 0 := by exact_mod_cast (tenTo_pos _).ne'
      have he' : ((tenTo (-e.scale).toNat : ℕ) : ℚ) ≠ 0 := by exact_mod_cast (tenTo_pos _).ne'
      rw [Decimal.value_eq_div, Decimal.value_eq_div, div_eq_div_iff hd' he'] at h
      exact_mod_cast h
    simp only [ofDecimal, if_neg hd, if_neg he, horder, hquotient]

/-! ## Doubles are left alone -/

/-- The absolute value of a finite double. -/
def value (x : Binary64) : ℚ := x.significand * (2 : ℚ) ^ x.exponent

/-- The value as the quotient that the definitions work with. -/
theorem value_eq_div (x : Binary64) : x.value = (x.numerator : ℚ) / x.denominator := by
  rw [value, numerator, denominator, ← twoTo_div_twoTo]
  push_cast
  ring

/-- The magnitude is the significand counted up from the first unit of its exponent. -/
theorem magnitude_eq (x : Binary64) :
    x.magnitude = (x.exponent + 1074).toNat * exponentWeight + x.significand := by
  simp only [exponent, significand, exponentWeight]
  split <;> omega

theorem le_exponent (x : Binary64) : -1074 ≤ x.exponent := by
  simp only [exponent]
  omega

/-- The exponent of a finite double is at most that of the greatest one. -/
theorem exponent_le {x : Binary64} (hx : x.isFinite = true) : x.exponent ≤ 971 := by
  have hlt : x.magnitude < infinityMagnitude := of_decide_eq_true hx
  simp only [infinityMagnitude, exponentWeight] at hlt
  simp only [exponent, exponentWeight]
  omega

theorem significand_lt (x : Binary64) : x.significand < 2 ^ 53 := by
  simp only [significand, exponentWeight]
  split <;> omega

theorem significand_pos {x : Binary64} (hx : x.magnitude ≠ 0) : 0 < x.significand := by
  simp only [significand, exponentWeight]
  split <;> omega

/-- Only numbers of the least exponent lack the leading bit. -/
theorem significand_ge {x : Binary64} (hx : x.exponent ≠ -1074) : 2 ^ 52 ≤ x.significand := by
  simp only [exponent, exponentWeight] at hx
  simp only [significand, exponentWeight]
  split <;> omega

theorem value_pos {x : Binary64} (hx : x.magnitude ≠ 0) : 0 < x.value := by
  have hsignificand : (0 : ℚ) < x.significand := by exact_mod_cast significand_pos hx
  exact mul_pos hsignificand (zpow_pos (by norm_num) _)

theorem value_nonneg (x : Binary64) : 0 ≤ x.value :=
  mul_nonneg (Nat.cast_nonneg _) (zpow_nonneg (by norm_num) _)

theorem value_of_magnitude_eq_zero {x : Binary64} (hx : x.magnitude = 0) : x.value = 0 := by
  have hsignificand : x.significand = 0 := by
    simp only [significand, hx]
    decide
  rw [value, hsignificand, Nat.cast_zero, zero_mul]

/-- The unit of the binade of a double is its own exponent. -/
theorem unit_eq_exponent {x : Binary64} (hx : x.magnitude ≠ 0) :
    max (Int.log 2 x.value) (-1022) - 52 = x.exponent := by
  have hpow : (0 : ℚ) < (2 : ℚ) ^ x.exponent := zpow_pos (by norm_num) _
  have hlt : x.value < ((2 : ℕ) : ℚ) ^ (53 + x.exponent) := by
    have hsignificand : (x.significand : ℚ) < 2 ^ 53 := by exact_mod_cast significand_lt x
    rw [value, Nat.cast_ofNat, zpow_add₀ (by norm_num)]
    exact mul_lt_mul_of_pos_right (by exact_mod_cast hsignificand) hpow
  have hhigh := (Int.lt_zpow_iff_log_lt (by decide) (value_pos hx)).mp hlt
  have hleast := le_exponent x
  by_cases he : x.exponent = -1074
  · omega
  · -- the leading bit is there, so the binade is known exactly
    have hle : ((2 : ℕ) : ℚ) ^ (52 + x.exponent) ≤ x.value := by
      have hsignificand : (2 ^ 52 : ℚ) ≤ x.significand := by exact_mod_cast significand_ge he
      rw [value, Nat.cast_ofNat, zpow_add₀ (by norm_num)]
      exact mul_le_mul_of_nonneg_right (by exact_mod_cast hsignificand) hpow.le
    have hlow := (Int.zpow_le_iff_le_log (by decide) (value_pos hx)).mp hle
    omega

/-- The value of a finite double rounds to its own magnitude. -/
theorem nearestMagnitude_value {x : Binary64} (hx : x.isFinite = true) (hzero : x.magnitude ≠ 0) :
    nearestMagnitude x.numerator x.denominator = x.magnitude := by
  have hden : 0 < x.denominator := twoTo_pos _
  have hnum : 0 < x.numerator := Nat.mul_pos (significand_pos hzero) (twoTo_pos _)
  have hunit : max (binade x.numerator x.denominator) (-1022) - 52 = x.exponent := by
    rw [binade_eq_log hnum hden, ← value_eq_div]
    exact unit_eq_exponent hzero
  have hcount : roundQuotient (x.numerator * twoTo (-x.exponent).toNat)
      (x.denominator * twoTo x.exponent.toNat) = x.significand := by
    rw [numerator, denominator, Nat.mul_assoc, Nat.mul_comm (twoTo (-x.exponent).toNat)]
    exact roundQuotient_mul_self _ (Nat.mul_pos (twoTo_pos _) (twoTo_pos _))
  -- the quotient by the unit is the significand, so nothing is rounded
  simp only [nearestMagnitude, hunit, hcount, ← magnitude_eq]
  simp only [isFinite, decide_eq_true_eq] at hx
  exact Nat.min_eq_left hx.le

/-- A finite double lies within the orders that rounding does not cut off. -/
theorem log_value_bounds {x : Binary64} (hx : x.isFinite = true) (hzero : x.magnitude ≠ 0) :
    -330 ≤ Int.log 10 x.value ∧ Int.log 10 x.value < 310 := by
  have hpos := value_pos hzero
  have hpow : (0 : ℚ) < (2 : ℚ) ^ x.exponent := zpow_pos (by norm_num) _
  constructor
  · have hone : (1 : ℚ) ≤ x.significand := by exact_mod_cast significand_pos hzero
    have hnat : (2 ^ 1074 : ℕ) ≤ 10 ^ 330 := by decide +kernel
    have hrat : (2 : ℚ) ^ 1074 ≤ 10 ^ 330 := by exact_mod_cast hnat
    rw [← Int.zpow_le_iff_le_log (by decide) hpos]
    calc ((10 : ℕ) : ℚ) ^ (-330 : Int) = ((10 : ℚ) ^ 330)⁻¹ := by rw [zpow_neg]; rfl
      _ ≤ ((2 : ℚ) ^ 1074)⁻¹ := by gcongr
      _ = (2 : ℚ) ^ (-1074 : Int) := by rw [zpow_neg]; rfl
      _ ≤ (2 : ℚ) ^ x.exponent := zpow_le_zpow_right₀ (by norm_num) (le_exponent x)
      _ = 1 * (2 : ℚ) ^ x.exponent := (one_mul _).symm
      _ ≤ x.value := mul_le_mul_of_nonneg_right hone hpow.le
  · have hsignificand : (x.significand : ℚ) < 2 ^ 53 := by exact_mod_cast significand_lt x
    have hnat : (2 ^ 53 * 2 ^ 971 : ℕ) ≤ 10 ^ 310 := by decide +kernel
    have hrat : (2 : ℚ) ^ 53 * 2 ^ 971 ≤ 10 ^ 310 := by exact_mod_cast hnat
    rw [← Int.lt_zpow_iff_log_lt (by decide) hpos]
    calc x.value < 2 ^ 53 * (2 : ℚ) ^ x.exponent := mul_lt_mul_of_pos_right hsignificand hpow
      _ ≤ 2 ^ 53 * (2 : ℚ) ^ (971 : Int) :=
          mul_le_mul_of_nonneg_left (zpow_le_zpow_right₀ (by norm_num) (exponent_le hx))
            (by positivity)
      _ ≤ ((10 : ℕ) : ℚ) ^ (310 : Int) := hrat

theorem eq_zero_of_magnitude {x : Binary64} (hx : x.magnitude = 0) : zero x.negative = x := by
  cases x
  simp only at hx
  subst hx
  rfl

/-- **A decimal that denotes a finite double exactly rounds to it.** The sign is not part
of the value, so it is given beside it. -/
theorem ofDecimal_of_value_eq {x : Binary64} (hx : x.isFinite = true) {d : Decimal}
    (h : d.value = x.value) : ofDecimal x.negative d.digits d.scale = x := by
  by_cases hzero : x.magnitude = 0
  · have hdigits : d.digits = 0 :=
      (d.value_eq_zero_iff).mp (h.trans (value_of_magnitude_eq_zero hzero))
    rw [ofDecimal, if_pos hdigits]
    exact eq_zero_of_magnitude hzero
  · have hdigits : d.digits ≠ 0 := by
      intro hd
      have := value_pos hzero
      rw [← h, (d.value_eq_zero_iff).mpr hd] at this
      exact lt_irrefl _ this
    have horder := order_eq_log hdigits
    obtain ⟨hlow, hhigh⟩ := log_value_bounds hx hzero
    rw [h] at horder
    have hnum : 0 < d.digits * tenTo d.scale.toNat :=
      Nat.mul_pos (Nat.pos_of_ne_zero hdigits) (tenTo_pos _)
    have hmagnitude : nearestMagnitude (d.digits * tenTo d.scale.toNat) (tenTo (-d.scale).toNat)
        = x.magnitude := by
      rw [← nearestMagnitude_value hx hzero]
      apply nearestMagnitude_congr hnum (tenTo_pos _)
        (Nat.mul_pos (significand_pos hzero) (twoTo_pos _)) (twoTo_pos _)
      have hd' : ((tenTo (-d.scale).toNat : ℕ) : ℚ) ≠ 0 := by exact_mod_cast (tenTo_pos _).ne'
      have hx' : (x.denominator : ℚ) ≠ 0 := by exact_mod_cast (twoTo_pos _).ne'
      rw [Decimal.value_eq_div, value_eq_div, div_eq_div_iff hd' hx'] at h
      exact_mod_cast h
    -- the order is within the bounds, so the decimal is neither cut to zero nor to infinity
    simp only [ofDecimal, if_neg hdigits, horder]
    rw [if_neg (by omega), if_neg (by omega)]
    cases x
    simp only [ofQuotient, if_neg hnum.ne', hmagnitude]

/-! ## The shortest decimal reads back -/

/-- Of two neighbours on a grid only one that reads back is taken. -/
theorem readsBack_nearestOnGrid {tie : Tie} {x : Binary64} {scale : Int} {num den : Nat}
    {d : Decimal} (h : nearestOnGrid tie x scale num den = some d) : readsBack x d = true := by
  cases tie with
  | away => grind [nearestOnGrid]
  | even => grind [nearestOnGrid]

/-- The exact expansion has the value of the double. -/
theorem value_exactDecimal (x : Binary64) : x.exactDecimal.value = x.value := by
  have hmin : min x.exponent 0 = -((-x.exponent).toNat : Int) := by omega
  rw [Decimal.value, exactDecimal, value_eq_div, hmin, denominator]
  have htwo : ((twoTo (-x.exponent).toNat : ℕ) : ℚ) = 2 ^ (-x.exponent).toNat := by
    simp only [twoTo, Nat.pow_eq, Nat.cast_pow, Nat.cast_ofNat]
  rw [htwo, zpow_neg, zpow_natCast, show (10 : ℚ) = 2 * 5 by norm_num, mul_pow]
  simp only [Nat.pow_eq, Nat.cast_mul, Nat.cast_pow, Nat.cast_ofNat]
  field_simp

/-- **The shortest decimal of a finite double reads back as that double.** -/
theorem ofDecimal_shortest (tie : Tie) {x : Binary64} (hx : x.isFinite = true) :
    ofDecimal x.negative (x.shortest tie).digits (x.shortest tie).scale = x := by
  simp only [shortest]
  split
  · rename_i hzero
    have hmagnitude : x.magnitude = 0 := by simpa only [isZero, decide_eq_true_eq] using hzero
    exact eq_zero_of_magnitude hmagnitude
  · generalize hfound : ((List.range 17).findSome? fun n => withDigits tie x (n + 1)) = found
    cases found with
    -- without a short decimal the exact expansion is taken
    | none => exact ofDecimal_of_value_eq hx (value_exactDecimal x)
    | some d =>
      obtain ⟨n, _, hn⟩ := List.exists_of_findSome?_eq_some hfound
      have hback : readsBack x d = true := readsBack_nearestOnGrid hn
      exact of_decide_eq_true hback

end Binary64

end DataLisp
