/-
Which quotients round to finite doubles, and how far rounding takes them.

Too great for a double is what lies at least half a unit beyond the greatest one
(`Binary64.overflow`): the half itself would go to an even neighbour, and that one would be the
next power of two, for which no exponent is left. Whether a quotient rounds to a finite double thus
depends on nothing but its value (`Binary64.nearestMagnitude_lt_iff`), and so it is for decimals.

Rounding moves a quotient by half a unit at most, and the unit is small against a quotient that is
not below the normal numbers (`Binary64.value_ofQuotient_le`). It keeps the order: what is not
below a double does not round below it (`Binary64.le_nearestMagnitude`). Products and quotients of
doubles are roundings of quotients, so all this is said of them too.
-/
import DataLisp.Proofs.Rounding

set_option autoImplicit false

namespace DataLisp

namespace Binary64

/-! ## Rounding to an integer -/

/-- A quotient is rounded to less than an even number exactly if it lies more than a half below:
an exact half goes up to it. -/
theorem roundQuotient_lt_iff {num den n : Nat} (hd : 0 < den) (hn : 0 < n) (heven : n % 2 = 0) :
    roundQuotient num den < n ↔ 2 * num < (2 * n - 1) * den := by
  have hnum : den * (num / den) + num % den = num := Nat.div_add_mod num den
  have hlt : num % den < den := Nat.mod_lt num hd
  simp only [roundQuotient]
  generalize num / den = low at hnum ⊢
  generalize num % den = rest at hnum hlt ⊢
  subst hnum
  rcases Nat.lt_trichotomy (low + 1) n with hbelow | rfl | habove
  · -- more than a unit below, rounding up does not get there
    obtain ⟨m, rfl⟩ := Nat.exists_eq_add_of_lt hbelow
    refine iff_of_true ?_ ?_
    · split_ifs <;> omega
    · calc 2 * (den * low + rest) < 2 * (den * low + den) := by omega
        _ = (2 * low + 2) * den := by ring
        _ ≤ (2 * (low + 1 + m + 1) - 1) * den := Nat.mul_le_mul_right den (by omega)
  · have hodd : low % 2 = 1 := by omega
    rw [show (2 * (low + 1) - 1) * den = 2 * (den * low) + den by
      rw [show 2 * (low + 1) - 1 = 2 * low + 1 by omega]; ring]
    split_ifs <;> omega
  · refine iff_of_false ?_ ?_
    · split_ifs <;> omega
    · rw [Nat.not_lt]
      calc (2 * n - 1) * den ≤ (2 * low) * den := Nat.mul_le_mul_right den (by omega)
        _ = 2 * (den * low) := by ring
        _ ≤ 2 * (den * low + rest) := by omega

theorem le_roundQuotient {num den n : Nat} (hd : 0 < den) (h : n * den ≤ num) :
    n ≤ roundQuotient num den := by
  have hlow : n ≤ num / den := (Nat.le_div_iff_mul_le hd).mpr h
  simp only [roundQuotient]
  split_ifs <;> omega

theorem roundQuotient_le {num den n : Nat} (hd : 0 < den) (h : num < n * den) :
    roundQuotient num den ≤ n := by
  have hlow : num / den < n := (Nat.div_lt_iff_lt_mul hd).mpr h
  simp only [roundQuotient]
  split_ifs <;> omega

/-- Rounding adds half a unit at most. -/
theorem two_mul_roundQuotient_le (num den : Nat) :
    2 * (roundQuotient num den * den) ≤ 2 * num + den := by
  have hnum : den * (num / den) + num % den = num := Nat.div_add_mod num den
  have hlow : num / den * den = den * (num / den) := Nat.mul_comm _ _
  simp only [roundQuotient]
  split_ifs with hbelow habove
  · omega
  · rw [Nat.add_mul]
    omega
  · -- an exact half, to which at most the other half is added
    have hparity : num / den % 2 * den ≤ 1 * den := Nat.mul_le_mul_right den (by omega)
    rw [Nat.add_mul]
    omega

/-! ## Rounding by a unit -/

/-- The exponent of the unit by which a positive rational is rounded: that of its binade less the
bits of a significand, but never below the least one. -/
def unitExponent (q : ℚ) : Int := max (Int.log 2 q) (-1022) - 52

section Unit

variable {num den n : Nat}

theorem quotient_pos (hn : 0 < num) (hd : 0 < den) : (0 : ℚ) < (num : ℚ) / den :=
  div_pos (by exact_mod_cast hn) (by exact_mod_cast hd)

/-- The quotient by a unit, which the definition splits into natural numbers. -/
theorem mul_twoTo_lt_iff {num den : Nat} (hd : 0 < den) (unit : Int) (n : Nat) :
    num * twoTo (-unit).toNat < n * (den * twoTo unit.toNat) ↔
      (num : ℚ) / den < n * (2 : ℚ) ^ unit := by
  have hden : (0 : ℚ) < den := by exact_mod_cast hd
  have hpow : (0 : ℚ) < twoTo (-unit).toNat := by exact_mod_cast twoTo_pos _
  rw [← twoTo_div_twoTo, ← mul_div_assoc, div_lt_div_iff₀ hden hpow]
  rw [show (n : ℚ) * (twoTo unit.toNat : ℕ) * den = ((n * (den * twoTo unit.toNat) : ℕ) : ℚ) by
    push_cast; ring]
  exact_mod_cast Iff.rfl

/-- What is at least a number of units is rounded to at least that number. -/
theorem le_roundQuotient_unit (hd : 0 < den) {unit : Int}
    (h : (n : ℚ) * (2 : ℚ) ^ unit ≤ (num : ℚ) / den) :
    n ≤ roundQuotient (num * twoTo (-unit).toNat) (den * twoTo unit.toNat) := by
  apply le_roundQuotient (Nat.mul_pos hd (twoTo_pos _))
  rw [← Nat.not_lt, mul_twoTo_lt_iff hd, not_lt]
  exact h

/-- What is below a number of units is rounded to at most that number. -/
theorem roundQuotient_unit_le (hd : 0 < den) {unit : Int}
    (h : (num : ℚ) / den < (n : ℚ) * (2 : ℚ) ^ unit) :
    roundQuotient (num * twoTo (-unit).toNat) (den * twoTo unit.toNat) ≤ n := by
  apply roundQuotient_le (Nat.mul_pos hd (twoTo_pos _))
  rw [mul_twoTo_lt_iff hd]
  exact h

/-- Rounded by a unit, a quotient grows by half the unit at most. -/
theorem roundQuotient_unit_mul_le (hd : 0 < den) (unit : Int) :
    (roundQuotient (num * twoTo (-unit).toNat) (den * twoTo unit.toNat) : ℚ) * (2 : ℚ) ^ unit
      ≤ (num : ℚ) / den + (2 : ℚ) ^ unit / 2 := by
  have hden : (0 : ℚ) < den := by exact_mod_cast hd
  have hdown : (0 : ℚ) < twoTo (-unit).toNat := by exact_mod_cast twoTo_pos _
  have hround : (2 * (roundQuotient (num * twoTo (-unit).toNat) (den * twoTo unit.toNat) *
      (den * twoTo unit.toNat)) : ℚ) ≤
        2 * (num * twoTo (-unit).toNat) + den * twoTo unit.toNat := by
    exact_mod_cast two_mul_roundQuotient_le _ _
  generalize roundQuotient (num * twoTo (-unit).toNat) (den * twoTo unit.toNat) = count at hround ⊢
  rw [← twoTo_div_twoTo]
  generalize (twoTo unit.toNat : ℚ) = up at hround ⊢
  generalize (twoTo (-unit).toNat : ℚ) = down at hdown hround ⊢
  rw [← mul_div_assoc, div_div, div_add_div _ _ hden.ne' (by positivity),
    div_le_div_iff₀ hdown (by positivity)]
  nlinarith [mul_pos hdown hdown]

theorem le_unitExponent (q : ℚ) : -1074 ≤ unitExponent q := by
  rw [unitExponent]
  omega

/-- A positive rational lies below the end of its binade. -/
theorem lt_unit (q : ℚ) : q < ((2 * exponentWeight : ℕ) : ℚ) * (2 : ℚ) ^ unitExponent q := by
  have hhigh := Int.lt_zpow_succ_log_self (b := 2) (by decide) q
  rw [Nat.cast_ofNat] at hhigh
  calc q < (2 : ℚ) ^ (Int.log 2 q + 1) := hhigh
    _ ≤ (2 : ℚ) ^ (53 + unitExponent q) :=
      zpow_le_zpow_right₀ (by norm_num) (by rw [unitExponent]; omega)
    _ = ((2 * exponentWeight : ℕ) : ℚ) * (2 : ℚ) ^ unitExponent q := by
      rw [zpow_add₀ (by norm_num)]
      norm_num

/-- A binade of normal numbers starts with as many units as the leading bit stands for. -/
theorem unit_eq {q : ℚ} (hnormal : -1022 ≤ Int.log 2 q) :
    ((exponentWeight : ℕ) : ℚ) * (2 : ℚ) ^ unitExponent q = (2 : ℚ) ^ Int.log 2 q := by
  have hlog : Int.log 2 q = 52 + unitExponent q := by
    rw [unitExponent]
    omega
  rw [hlog, zpow_add₀ (by norm_num)]
  norm_num

/-- So what is not below the normal numbers lies above the start of its binade. -/
theorem unit_le {q : ℚ} (hq : 0 < q) (hnormal : -1022 ≤ Int.log 2 q) :
    ((exponentWeight : ℕ) : ℚ) * (2 : ℚ) ^ unitExponent q ≤ q := by
  have hlow := Int.zpow_log_le_self (b := 2) (by decide) hq
  rw [unit_eq hnormal]
  exact hlow

end Unit

/-! ## The bound -/

/-- Half a unit beyond the greatest double. -/
def overflow : ℚ := 2 ^ 1024 - 2 ^ 970

/-- The bound in half units of the last binade, of which it is an odd number. -/
theorem overflow_eq :
    overflow = ((2 * (2 * exponentWeight) - 1 : ℕ) : ℚ) * (2 : ℚ) ^ (971 : Int) / 2 := by
  have hunit : (2 : ℚ) ^ (971 : Int) = 2 ^ 970 * 2 := by
    rw [show (971 : Int) = ((970 + 1 : ℕ) : Int) by rfl, zpow_natCast, pow_succ]
  have hlast : (2 : ℚ) ^ 1024 = 2 ^ 54 * 2 ^ 970 := pow_add 2 54 970
  rw [overflow, hunit, hlast]
  generalize (2 : ℚ) ^ 970 = half
  norm_num
  ring

theorem overflow_lt : overflow < (2 : ℚ) ^ (1024 : Int) := by
  have hpow : (0 : ℚ) < 2 ^ 970 := by positivity
  exact sub_lt_self _ hpow

theorem lt_overflow : (2 : ℚ) ^ (1023 : Int) < overflow := by
  have hlt : (2 : ℚ) ^ 970 < 2 ^ 1023 := pow_lt_pow_right₀ (by norm_num) (by decide)
  have hlast : (2 : ℚ) ^ 1024 = 2 ^ 1023 * 2 := pow_succ 2 1023
  show (2 : ℚ) ^ 1023 < overflow
  rw [overflow, hlast, lt_sub_iff_add_lt, mul_two]
  exact (add_lt_add_iff_left _).mpr hlt

theorem overflow_lt_tenTo : overflow < (10 : ℚ) ^ (309 : Int) := by
  have hnat : (2 ^ 1024 : ℕ) ≤ 10 ^ 309 := by decide +kernel
  have hrat : (2 : ℚ) ^ 1024 ≤ 10 ^ 309 := by exact_mod_cast hnat
  exact lt_of_lt_of_le overflow_lt hrat

theorem one_lt_overflow : 1 < overflow :=
  lt_trans (one_lt_zpow₀ (by norm_num) (by decide)) lt_overflow

/-- The magnitude in terms of the value: full blocks for the exponent of the unit, and the units
that were counted. -/
theorem nearestMagnitude_eq {num den : Nat} (hn : 0 < num) (hd : 0 < den) {unit : Int}
    (hunit : unitExponent ((num : ℚ) / den) = unit) :
    nearestMagnitude num den = min ((unit + 1074).toNat * exponentWeight +
      roundQuotient (num * twoTo (-unit).toNat) (den * twoTo unit.toNat)) infinityMagnitude := by
  rw [unitExponent] at hunit
  simp only [nearestMagnitude, binade_eq_log hn hd, hunit]

/-- **The magnitude of a quotient is finite exactly below the bound.** Only in the last binade does
this take a look at rounding; above it there is no exponent, and below it room for one more. -/
theorem nearestMagnitude_lt_iff {num den : Nat} (hn : 0 < num) (hd : 0 < den) :
    nearestMagnitude num den < infinityMagnitude ↔ (num : ℚ) / den < overflow := by
  have hq := quotient_pos hn hd
  have hlow := Int.zpow_log_le_self (b := 2) (by decide) hq
  have hhigh := Int.lt_zpow_succ_log_self (b := 2) (by decide) ((num : ℚ) / den)
  rw [Nat.cast_ofNat] at hlow hhigh
  have hinfinity : infinityMagnitude = 2047 * exponentWeight := rfl
  have hweight : 0 < exponentWeight := by decide
  generalize hunit : unitExponent ((num : ℚ) / den) = unit
  rw [nearestMagnitude_eq hn hd hunit]
  simp only [min_lt_iff, lt_irrefl, or_false]
  rcases lt_trichotomy (Int.log 2 ((num : ℚ) / den)) 1023 with hk | hk | hk
  · -- a binade below the last one, whose numbers end at the next power of two
    have hcount : roundQuotient (num * twoTo (-unit).toNat) (den * twoTo unit.toNat)
        ≤ 2 * exponentWeight := roundQuotient_unit_le hd (hunit ▸ lt_unit _)
    have hblocks : (unit + 1074).toNat * exponentWeight ≤ 2044 * exponentWeight :=
      Nat.mul_le_mul_right _ (by rw [unitExponent] at hunit; omega)
    refine iff_of_true (by omega) ?_
    calc (num : ℚ) / den < (2 : ℚ) ^ (Int.log 2 ((num : ℚ) / den) + 1) := hhigh
      _ ≤ (2 : ℚ) ^ (1023 : Int) := zpow_le_zpow_right₀ (by norm_num) (by omega)
      _ < overflow := lt_overflow
  · -- the last binade: the count must stay below its end, and it is rounded to that
    obtain rfl : unit = 971 := by
      rw [← hunit, unitExponent, hk]
      rfl
    have hcount : roundQuotient (num * twoTo (-971 : Int).toNat) (den * twoTo (971 : Int).toNat)
        < 2 * exponentWeight ↔ (num : ℚ) / den < overflow := by
      rw [roundQuotient_lt_iff (Nat.mul_pos hd (twoTo_pos _)) (by decide) (by decide), ← mul_assoc,
        mul_twoTo_lt_iff hd, overflow_eq, lt_div_iff₀ two_pos, Nat.cast_mul, Nat.cast_ofNat,
        mul_div_assoc, mul_comm (2 : ℚ) (num / den)]
    have hblocks : ((971 : Int) + 1074).toNat * exponentWeight = 2045 * exponentWeight := rfl
    rw [← hcount]
    omega
  · have hcount : exponentWeight
        ≤ roundQuotient (num * twoTo (-unit).toNat) (den * twoTo unit.toNat) :=
      le_roundQuotient_unit hd (hunit ▸ unit_le hq (by omega))
    have hblocks : 2046 * exponentWeight ≤ (unit + 1074).toNat * exponentWeight :=
      Nat.mul_le_mul_right _ (by rw [unitExponent] at hunit; omega)
    refine iff_of_false (by omega) ?_
    rw [not_lt]
    calc overflow ≤ (2 : ℚ) ^ (1024 : Int) := overflow_lt.le
      _ ≤ (2 : ℚ) ^ Int.log 2 ((num : ℚ) / den) :=
        zpow_le_zpow_right₀ (by norm_num) (by omega)
      _ ≤ (num : ℚ) / den := hlow

/-- A quotient below the bound rounds to a finite double. -/
theorem isFinite_ofQuotient {negative : Bool} {num den : Nat} (hd : 0 < den)
    (h : (num : ℚ) / den < overflow) : (ofQuotient negative num den).isFinite = true := by
  by_cases hn : num = 0
  · simp only [isFinite, ofQuotient, if_pos hn]
    decide
  · simp only [isFinite, ofQuotient, if_neg hn, decide_eq_true_iff]
    exact (nearestMagnitude_lt_iff (Nat.pos_of_ne_zero hn) hd).mpr h

/-- Finite doubles lie below the bound. -/
theorem value_lt_overflow {x : Binary64} (hx : x.isFinite = true) : x.value < overflow := by
  by_cases hzero : x.magnitude = 0
  · rw [value_of_magnitude_eq_zero hzero]
    exact lt_trans one_pos one_lt_overflow
  · rw [value_eq_div]
    have hnum : 0 < x.numerator := Nat.mul_pos (significand_pos hzero) (twoTo_pos _)
    have hden : 0 < x.denominator := twoTo_pos _
    rw [← nearestMagnitude_lt_iff hnum hden, nearestMagnitude_value hx hzero]
    exact of_decide_eq_true hx

/-! ## The value of what is rounded -/

/-- A magnitude of full blocks and a number of units denotes that number of units. A number that
reaches the end of the binade carries into the next block, and denotes the same there. -/
theorem value_of_magnitude {x : Binary64} {unit : Int} {count : Nat} (hunit : -1074 ≤ unit)
    (hlow : exponentWeight ≤ count ∨ unit = -1074) (hhigh : count ≤ 2 * exponentWeight)
    (hx : x.magnitude = (unit + 1074).toNat * exponentWeight + count) :
    x.value = count * (2 : ℚ) ^ unit := by
  have hparts : x.exponent = unit ∧ x.significand = count ∨
      x.exponent = unit + 1 ∧ 2 * x.significand = count := by
    simp only [exponent, significand, exponentWeight] at *
    split <;> omega
  rcases hparts with ⟨hexponent, hsignificand⟩ | ⟨hexponent, hsignificand⟩
  · rw [value, hexponent, hsignificand]
  · rw [value, hexponent, ← hsignificand, zpow_add_one₀ (by norm_num)]
    push_cast
    ring

section Value

variable {negative : Bool} {num den : Nat}

/-- **What a quotient is rounded to** denotes the number of units that were counted. -/
theorem value_ofQuotient (hn : 0 < num) (hd : 0 < den)
    (hfinite : (ofQuotient negative num den).isFinite = true) {unit : Int}
    (hunit : unitExponent ((num : ℚ) / den) = unit) :
    (ofQuotient negative num den).value =
      roundQuotient (num * twoTo (-unit).toNat) (den * twoTo unit.toNat) * (2 : ℚ) ^ unit := by
  have hq := quotient_pos hn hd
  apply value_of_magnitude (hunit ▸ le_unitExponent _)
  · rcases lt_or_ge (Int.log 2 ((num : ℚ) / den)) (-1022) with hk | hk
    · right
      rw [← hunit, unitExponent]
      omega
    · exact .inl (le_roundQuotient_unit hd (hunit ▸ unit_le hq hk))
  · exact roundQuotient_unit_le hd (hunit ▸ lt_unit _)
  · have hmagnitude : (ofQuotient negative num den).magnitude = nearestMagnitude num den :=
      if_neg hn.ne'
    have hlt : nearestMagnitude num den < infinityMagnitude :=
      hmagnitude ▸ of_decide_eq_true hfinite
    rw [nearestMagnitude_eq hn hd hunit] at hmagnitude hlt
    rw [hmagnitude, min_eq_left (by omega)]

/-- **Rounding a quotient up** adds at most one in `2 ^ 53` of it, unless it is below the normal
numbers. -/
theorem value_ofQuotient_le (hn : 0 < num) (hd : 0 < den)
    (hfinite : (ofQuotient negative num den).isFinite = true)
    (hnormal : -1022 ≤ Int.log 2 ((num : ℚ) / den)) :
    (ofQuotient negative num den).value ≤ (1 + 1 / 2 ^ 53) * ((num : ℚ) / den) := by
  have hq := quotient_pos hn hd
  have hunit := unit_le hq hnormal
  rw [value_ofQuotient hn hd hfinite rfl]
  refine (roundQuotient_unit_mul_le hd _).trans ?_
  generalize (2 : ℚ) ^ unitExponent ((num : ℚ) / den) = unit at hunit ⊢
  norm_num at hunit ⊢
  linarith

/-- Rounding does not leave the binade at its lower end. -/
theorem zpow_log_le_value (hn : 0 < num) (hd : 0 < den)
    (hfinite : (ofQuotient negative num den).isFinite = true)
    (hnormal : -1022 ≤ Int.log 2 ((num : ℚ) / den)) :
    (2 : ℚ) ^ Int.log 2 ((num : ℚ) / den) ≤ (ofQuotient negative num den).value := by
  have hq := quotient_pos hn hd
  have hcount := le_roundQuotient_unit hd (unit_le hq hnormal)
  rw [value_ofQuotient hn hd hfinite rfl, ← unit_eq hnormal]
  gcongr

/-- **Rounding keeps the order**: what is not below a double is not rounded below it. -/
theorem le_nearestMagnitude (hd : 0 < den) {y : Binary64} (hy : y.isFinite = true)
    (h : y.value ≤ (num : ℚ) / den) : y.magnitude ≤ nearestMagnitude num den := by
  by_cases hzero : y.magnitude = 0
  · omega
  have hpos := value_pos hzero
  have hq : (0 : ℚ) < (num : ℚ) / den := lt_of_lt_of_le hpos h
  have hn : 0 < num := by
    rcases Nat.eq_zero_or_pos num with rfl | hn
    · simp at hq
    · exact hn
  have hlog : Int.log 2 y.value ≤ Int.log 2 ((num : ℚ) / den) := Int.log_mono_right hpos h
  have hexponent := unit_eq_exponent hzero
  have hbound : y.magnitude < infinityMagnitude := of_decide_eq_true hy
  rw [nearestMagnitude_eq hn hd rfl, le_min_iff]
  refine ⟨?_, hbound.le⟩
  rw [magnitude_eq]
  rcases eq_or_lt_of_le (show y.exponent ≤ unitExponent ((num : ℚ) / den) by
    rw [unitExponent]; omega) with hunit | hunit
  · -- in the same binade the units are compared
    rw [hunit]
    refine Nat.add_le_add_left (le_roundQuotient_unit hd ?_) _
    rw [← hunit]
    exact h
  · -- a higher binade starts where that of the double ends
    have hcount := le_roundQuotient_unit hd (unit_le hq (by rw [unitExponent] at hunit; omega))
    have hblocks : ((y.exponent + 1074).toNat + 1) * exponentWeight
        ≤ (unitExponent ((num : ℚ) / den) + 1074).toNat * exponentWeight :=
      Nat.mul_le_mul_right _ (by have := le_exponent y; omega)
    have hsignificand := significand_lt y
    have hweight : 2 ^ 53 = 2 * exponentWeight := rfl
    rw [Nat.succ_mul] at hblocks
    omega

end Value

/-! ## Decimals -/

/-- Rounding knows finite doubles and one infinity for either sign. -/
theorem isFinite_or_eq_infinity {x : Binary64} (hx : x.magnitude ≤ infinityMagnitude) :
    x.isFinite = true ∨ x = infinity x.negative := by
  obtain ⟨negative, magnitude, hlt⟩ := x
  rcases Nat.lt_or_eq_of_le hx with hfinite | hinfinite
  · exact .inl (decide_eq_true hfinite)
  · right
    simp only [infinity, mk.injEq, true_and]
    exact hinfinite

theorem isFinite_infinity (negative : Bool) : (infinity negative).isFinite = false := by
  simp [isFinite, infinity]

theorem negative_ofDecimal (negative : Bool) (digits : Nat) (scale : Int) :
    (ofDecimal negative digits scale).negative = negative := by
  simp only [ofDecimal, ofQuotient, zero, infinity]
  split_ifs
  all_goals rfl

/-- A decimal that rounds to nothing finite rounds to the infinity of its sign. -/
theorem ofDecimal_eq_infinity {negative : Bool} {digits : Nat} {scale : Int}
    (h : (ofDecimal negative digits scale).isFinite = false) :
    ofDecimal negative digits scale = infinity negative := by
  have hbound : (ofDecimal negative digits scale).magnitude ≤ infinityMagnitude := by
    simp only [ofDecimal, ofQuotient, zero, infinity]
    split_ifs
    all_goals simp [nearestMagnitude]
  rcases isFinite_or_eq_infinity hbound with hfinite | hinfinite
  · rw [h] at hfinite
    cases hfinite
  · rw [hinfinite, negative_ofDecimal]

/-- **A decimal rounds to a finite double exactly if its value is below the bound.** -/
theorem isFinite_ofDecimal_iff (negative : Bool) (d : Decimal) :
    (ofDecimal negative d.digits d.scale).isFinite = true ↔ d.value < overflow := by
  have hzero : (zero negative).isFinite = true := rfl
  by_cases hdigits : d.digits = 0
  · rw [ofDecimal, if_pos hdigits, (d.value_eq_zero_iff).mpr hdigits]
    exact iff_of_true hzero (lt_trans one_pos one_lt_overflow)
  have hpos := d.value_pos hdigits
  have horder := order_eq_log hdigits
  have hlow := Int.zpow_log_le_self (b := 10) (by decide) hpos
  have hhigh := Int.lt_zpow_succ_log_self (b := 10) (by decide) d.value
  rw [Nat.cast_ofNat] at hlow hhigh
  simp only [ofDecimal, if_neg hdigits, horder]
  split_ifs with hgreat hsmall
  · -- so far out that the power of ten is not built
    refine iff_of_false (by simp [isFinite_infinity]) ?_
    rw [not_lt]
    calc overflow ≤ (10 : ℚ) ^ (309 : Int) := overflow_lt_tenTo.le
      _ ≤ (10 : ℚ) ^ Int.log 10 d.value := zpow_le_zpow_right₀ (by norm_num) (by omega)
      _ ≤ d.value := hlow
  · refine iff_of_true hzero ?_
    calc d.value < (10 : ℚ) ^ (Int.log 10 d.value + 1) := hhigh
      _ ≤ (10 : ℚ) ^ (0 : Int) := zpow_le_zpow_right₀ (by norm_num) (by omega)
      _ < overflow := one_lt_overflow
  · have hnum : 0 < d.digits * tenTo d.scale.toNat :=
      Nat.mul_pos (Nat.pos_of_ne_zero hdigits) (tenTo_pos _)
    simp only [isFinite, ofQuotient, if_neg hnum.ne', decide_eq_true_iff]
    rw [nearestMagnitude_lt_iff hnum (tenTo_pos _), d.value_eq_div]

/-- Rounding keeps the order of decimals too, those that are cut off included. -/
theorem le_magnitude_ofDecimal (negative : Bool) {d : Decimal} {y : Binary64}
    (hy : y.isFinite = true) (h : y.value ≤ d.value) :
    y.magnitude ≤ (ofDecimal negative d.digits d.scale).magnitude := by
  by_cases hzero : y.magnitude = 0
  · omega
  have hpos := lt_of_lt_of_le (value_pos hzero) h
  have hdigits : d.digits ≠ 0 := fun hd => hpos.ne' ((d.value_eq_zero_iff).mpr hd)
  have hlog : Int.log 10 y.value ≤ Int.log 10 d.value := Int.log_mono_right (value_pos hzero) h
  have hbound := (log_value_bounds hy hzero).1
  have hfinite : y.magnitude < infinityMagnitude := of_decide_eq_true hy
  simp only [ofDecimal, if_neg hdigits, order_eq_log hdigits]
  split_ifs with hgreat hsmall
  · exact hfinite.le
  · omega
  · have hnum : 0 < d.digits * tenTo d.scale.toNat :=
      Nat.mul_pos (Nat.pos_of_ne_zero hdigits) (tenTo_pos _)
    simp only [ofQuotient, if_neg hnum.ne']
    rw [d.value_eq_div] at h
    exact le_nearestMagnitude (tenTo_pos _) hy h

/-- A decimal that is not cut off rounds as any quotient of its value. -/
theorem magnitude_ofDecimal {negative negative' : Bool} {d : Decimal} {num den : Nat}
    (hd : 0 < den) (h : (num : ℚ) / den = d.value)
    (hgreat : (decimalLength d.digits : Int) + d.scale ≤ 310)
    (hsmall : -330 ≤ (decimalLength d.digits : Int) + d.scale) :
    (ofDecimal negative d.digits d.scale).magnitude = (ofQuotient negative' num den).magnitude := by
  have hden : (den : ℚ) ≠ 0 := by exact_mod_cast hd.ne'
  by_cases hdigits : d.digits = 0
  · have hnum : num = 0 := by
      rw [(d.value_eq_zero_iff).mpr hdigits, div_eq_zero_iff, or_iff_left hden] at h
      exact_mod_cast h
    rw [ofDecimal, if_pos hdigits, ofQuotient, hnum]
    rfl
  · have hvalue : (num : ℚ) / den ≠ 0 := h ▸ (d.value_pos hdigits).ne'
    have hnum : num ≠ 0 := by
      rintro rfl
      exact hvalue (by rw [Nat.cast_zero, zero_div])
    have hpos : 0 < d.digits * tenTo d.scale.toNat :=
      Nat.mul_pos (Nat.pos_of_ne_zero hdigits) (tenTo_pos _)
    have hpow : ((tenTo (-d.scale).toNat : ℕ) : ℚ) ≠ 0 := by exact_mod_cast (tenTo_pos _).ne'
    rw [d.value_eq_div, div_eq_div_iff hden hpow] at h
    simp only [ofDecimal, if_neg hdigits, if_neg (not_lt.mpr hgreat), if_neg (not_lt.mpr hsmall),
      ofQuotient, if_neg hnum, if_neg hpos.ne']
    exact nearestMagnitude_congr hpos (tenTo_pos _) (Nat.pos_of_ne_zero hnum) hd
      (by exact_mod_cast h.symm)

/-! ## Integers -/

section Integer

variable {n : Nat}

/-- What is not below one is far above the numbers that are not normal. -/
theorem log_nonneg {q : ℚ} (hq : 1 ≤ q) : 0 ≤ Int.log 2 q := by
  rw [Int.log_of_one_le_right 2 hq]
  exact Int.natCast_nonneg _

theorem log_div_one_nonneg (hn : 0 < n) : 0 ≤ Int.log 2 ((n : ℚ) / ((1 : ℕ) : ℚ)) := by
  rw [Nat.cast_one, div_one]
  exact log_nonneg (by exact_mod_cast hn)

/-- Rounding an integer up adds little to it. -/
theorem value_ofQuotient_one_le (hfinite : (ofQuotient false n 1).isFinite = true) :
    (ofQuotient false n 1).value ≤ (1 + 1 / 2 ^ 53) * n := by
  rcases Nat.eq_zero_or_pos n with rfl | hn
  · rw [value_of_magnitude_eq_zero rfl, Nat.cast_zero, mul_zero]
  · have hlog := log_div_one_nonneg hn
    have hvalue := value_ofQuotient_le hn one_pos hfinite (by omega)
    rwa [Nat.cast_one, div_one] at hvalue

theorem one_le_value_ofQuotient_one (hn : 0 < n)
    (hfinite : (ofQuotient false n 1).isFinite = true) : 1 ≤ (ofQuotient false n 1).value := by
  have hlog := log_div_one_nonneg hn
  exact (one_le_zpow₀ (by norm_num) hlog).trans
    (zpow_log_le_value hn one_pos hfinite (by omega))

/-- A significand of 64 bits is far from being too great. -/
theorem isFinite_ofQuotient_one (hn : n < UInt64.size) :
    (ofQuotient false n 1).isFinite = true := by
  have hbits : n ≤ 2 ^ 64 := hn.le
  apply isFinite_ofQuotient one_pos
  rw [Nat.cast_one, div_one]
  calc (n : ℚ) ≤ (2 : ℚ) ^ (64 : Int) := by exact_mod_cast hbits
    _ ≤ (2 : ℚ) ^ (1023 : Int) := zpow_le_zpow_right₀ (by norm_num) (by norm_num)
    _ < overflow := lt_overflow

/-- **An integer that a significand holds is a double**, and nothing is rounded. -/
theorem value_ofQuotient_one (hn : n < 2 ^ 53) : (ofQuotient false n 1).value = n := by
  rcases Nat.eq_zero_or_pos n with rfl | hpos
  · rw [value_of_magnitude_eq_zero rfl, Nat.cast_zero]
  have hlt : (n : ℚ) / ((1 : ℕ) : ℚ) < ((2 : ℕ) : ℚ) ^ (53 : Int) := by
    rw [Nat.cast_one, div_one]
    exact_mod_cast hn
  have hlog : Int.log 2 ((n : ℚ) / ((1 : ℕ) : ℚ)) < 53 :=
    (Int.lt_zpow_iff_log_lt (by decide) (by rw [Nat.cast_one, div_one]; exact_mod_cast hpos)).mp hlt
  generalize hunit : unitExponent ((n : ℚ) / ((1 : ℕ) : ℚ)) = unit
  have hnonpos : unit ≤ 0 := by
    rw [← hunit, unitExponent]
    omega
  have hup : twoTo unit.toNat = 1 := by
    rw [Int.toNat_of_nonpos hnonpos]
    rfl
  have hdown : (twoTo (-unit).toNat : ℚ) ≠ 0 := by exact_mod_cast (twoTo_pos _).ne'
  -- the integer is counted in units that divide it
  have hcount := roundQuotient_mul_self (n * twoTo (-unit).toNat) one_pos
  rw [Nat.mul_one] at hcount
  rw [value_ofQuotient hpos one_pos (isFinite_ofQuotient_one (hn.trans (by decide))) hunit,
    ← twoTo_div_twoTo, hup, Nat.mul_one, hcount, Nat.cast_mul, Nat.cast_one, mul_assoc,
    mul_one_div_cancel hdown, mul_one]

end Integer

/-! ## Products and quotients -/

section Arithmetic

variable {x y : Binary64}

theorem denominator_pos (x : Binary64) : 0 < x.denominator :=
  twoTo_pos _

theorem numerator_pos (hx : 1 ≤ x.value) : 0 < x.numerator := by
  rw [Nat.pos_iff_ne_zero]
  intro hzero
  rw [value_eq_div, hzero, Nat.cast_zero, zero_div] at hx
  exact absurd hx (by norm_num)

/-- The fraction from which a product is rounded is the product of the values. -/
theorem fraction_mul (x y : Binary64) :
    ((x.numerator * y.numerator : ℕ) : ℚ) / ((x.denominator * y.denominator : ℕ) : ℚ) =
      x.value * y.value := by
  rw [value_eq_div, value_eq_div, div_mul_div_comm]
  push_cast
  rfl

/-- The fraction from which a quotient is rounded is the quotient of the values. -/
theorem fraction_div (x y : Binary64) :
    ((x.numerator * y.denominator : ℕ) : ℚ) / ((x.denominator * y.numerator : ℕ) : ℚ) =
      x.value / y.value := by
  rw [value_eq_div, value_eq_div, div_div_div_eq]
  push_cast
  rfl

theorem isFinite_mul (h : x.value * y.value < overflow) : (x.mul y).isFinite = true := by
  apply isFinite_ofQuotient (Nat.mul_pos x.denominator_pos y.denominator_pos)
  rw [fraction_mul]
  exact h

/-- Dividing by what is not below one stays finite. -/
theorem isFinite_div (hx : x.isFinite = true) (hy : 1 ≤ y.value) :
    (x.div y).isFinite = true := by
  apply isFinite_ofQuotient (Nat.mul_pos x.denominator_pos (numerator_pos hy))
  rw [fraction_div]
  exact lt_of_le_of_lt (div_le_self (value_nonneg x) hy) (value_lt_overflow hx)

end Arithmetic

/-! ## Powers of ten -/

theorem cast_tenTo (k : Nat) : ((tenTo k : ℕ) : ℚ) = 10 ^ k := by
  rw [tenTo, Nat.pow_eq]
  norm_cast

/-- The powers of ten end shortly before the doubles do. -/
theorem tenTo_lt_overflow : (10 : ℚ) ^ 308 < overflow := by
  have hnat : (10 ^ 308 + 2 ^ 970 : ℕ) < 2 ^ 1024 := by decide +kernel
  have hrat : (10 : ℚ) ^ 308 + 2 ^ 970 < 2 ^ 1024 := by exact_mod_cast hnat
  exact lt_sub_iff_add_lt.mpr hrat

theorem isFinite_ofPowerOfTen {k : Nat} (hk : k ≤ 308) : (ofPowerOfTen k).isFinite = true := by
  apply isFinite_ofQuotient one_pos
  rw [Nat.cast_one, div_one, cast_tenTo]
  exact lt_of_le_of_lt (pow_le_pow_right₀ (by norm_num) hk) tenTo_lt_overflow

theorem one_le_value_ofPowerOfTen {k : Nat} (hk : k ≤ 308) : 1 ≤ (ofPowerOfTen k).value :=
  one_le_value_ofQuotient_one (tenTo_pos k) (isFinite_ofPowerOfTen hk)

theorem value_ofPowerOfTen_le {k : Nat} (hk : k ≤ 308) :
    (ofPowerOfTen k).value ≤ (1 + 1 / 2 ^ 53) * 10 ^ k := by
  have hvalue := value_ofQuotient_one_le (isFinite_ofPowerOfTen hk)
  rwa [cast_tenTo] at hvalue

/-- Up to `10 ^ 22` the powers of ten are doubles. -/
theorem value_ofPowerOfTen {k : Nat} (hk : k ≤ 22) : (ofPowerOfTen k).value = 10 ^ k := by
  have hfractions : ∀ k : Fin 23, (ofPowerOfTen k).numerator =
      tenTo k * (ofPowerOfTen k).denominator := by
    decide +kernel
  have hden : ((ofPowerOfTen k).denominator : ℚ) ≠ 0 := by
    exact_mod_cast (ofPowerOfTen k).denominator_pos.ne'
  rw [value_eq_div, hfractions ⟨k, by omega⟩, div_eq_iff hden, Nat.cast_mul, cast_tenTo]

end Binary64

end DataLisp
