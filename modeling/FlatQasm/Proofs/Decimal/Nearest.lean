import FlatQasm.Decimal.Shortest
import Mathlib

/-!
# Exact values are found again

The bits nearest to a quotient are those of a magnitude whenever the quotient is the exact value of
that magnitude.  Rounding has nothing to do then, and all that has to be right is the exponent: of
the exponents at which a value has a mantissa of at most 53 bits, the least one.

A decimal that is printed for a magnitude reads back as that magnitude.  The search for a short one
makes sure by reading it, and the exact decimal, which it falls back on, has the same value.

## Main definitions

* `Magnitude.value`, `Scientific.value` — the rational number that is meant.
* `Magnitude.IsCanonical` — the mantissa and exponent of a float.

## Main statements

* `nearestBits_of_value` — an exact value is found again.
* `toBits_shortest` — the decimal that is printed reads back.
-/

namespace FlatQasm.Decimal

/-! ## Values -/

/-- The rational number that is meant. -/
def Magnitude.value (v : Magnitude) : ℚ := v.mantissa * 2 ^ v.exponent

/-- The rational number that is meant. -/
def Scientific.value (d : Scientific) : ℚ := d.digits * 10 ^ d.exponent

/-- Comparing two naturals of which one is scaled by a power of two. -/
theorem shiftLeft_lt_shiftLeft_iff (a b : ℕ) (k : ℤ) :
    a <<< (-k).toNat < b <<< k.toNat ↔ (a : ℚ) < b * 2 ^ k := by
  rw [Nat.shiftLeft_eq, Nat.shiftLeft_eq]
  obtain ⟨n, rfl | rfl⟩ := k.eq_nat_or_neg
  · rw [Int.toNat_natCast, Int.toNat_of_nonpos (by omega), pow_zero, mul_one, zpow_natCast]
    exact_mod_cast Iff.rfl
  · rw [neg_neg, Int.toNat_natCast, Int.toNat_of_nonpos (by omega), pow_zero, mul_one, zpow_neg,
      zpow_natCast, ← div_eq_mul_inv, lt_div_iff₀ (by positivity)]
    exact_mod_cast Iff.rfl

theorem shiftLeft_eq_mul_shiftLeft_iff (a b m : ℕ) (k : ℤ) :
    a <<< (-k).toNat = m * (b <<< k.toNat) ↔ (a : ℚ) = m * 2 ^ k * b := by
  rw [Nat.shiftLeft_eq, Nat.shiftLeft_eq]
  obtain ⟨n, rfl | rfl⟩ := k.eq_nat_or_neg
  · rw [Int.toNat_natCast, Int.toNat_of_nonpos (by omega), pow_zero, mul_one, zpow_natCast,
      mul_assoc, mul_comm (2 ^ n : ℚ)]
    exact_mod_cast Iff.rfl
  · rw [neg_neg, Int.toNat_natCast, Int.toNat_of_nonpos (by omega), pow_zero, mul_one, zpow_neg,
      zpow_natCast, mul_right_comm, ← div_eq_mul_inv, eq_div_iff (by positivity)]
    exact_mod_cast Iff.rfl

/-! ## The exponent -/

/-- A quotient lies between the powers of two that the logarithms of its parts give. -/
theorem quotient_between {num den : ℕ} (hnum : num ≠ 0) (hden : den ≠ 0) :
    (num : ℚ) < den * 2 ^ ((num.log2 : ℤ) - den.log2 + 1) ∧
      den * 2 ^ ((num.log2 : ℤ) - den.log2 - 1) ≤ (num : ℚ) := by
  have numLow : (2 : ℚ) ^ (num.log2 : ℤ) ≤ num := by
    exact_mod_cast Nat.log2_self_le hnum
  have numHigh : (num : ℚ) < 2 ^ ((num.log2 : ℤ) + 1) := by
    exact_mod_cast Nat.lt_log2_self (n := num)
  have denLow : (2 : ℚ) ^ (den.log2 : ℤ) ≤ den := by
    exact_mod_cast Nat.log2_self_le hden
  have denHigh : (den : ℚ) < 2 ^ ((den.log2 : ℤ) + 1) := by
    exact_mod_cast Nat.lt_log2_self (n := den)
  constructor
  · calc (num : ℚ) < 2 ^ ((num.log2 : ℤ) + 1) := numHigh
      _ = 2 ^ (den.log2 : ℤ) * 2 ^ ((num.log2 : ℤ) - den.log2 + 1) := by
        rw [← zpow_add₀ two_ne_zero]
        congr 1
        omega
      _ ≤ den * 2 ^ ((num.log2 : ℤ) - den.log2 + 1) := by gcongr
  · calc (den : ℚ) * 2 ^ ((num.log2 : ℤ) - den.log2 - 1)
        ≤ 2 ^ ((den.log2 : ℤ) + 1) * 2 ^ ((num.log2 : ℤ) - den.log2 - 1) := by gcongr
      _ = 2 ^ (num.log2 : ℤ) := by
        rw [← zpow_add₀ two_ne_zero]
        congr 1
        omega
      _ ≤ num := numLow

/-- The exponent is in range, the mantissa has at most 53 bits there, and no lesser exponent in
range would do. -/
theorem unitExponent_spec {num den : ℕ} (hnum : num ≠ 0) (hden : den ≠ 0) :
    -1074 ≤ unitExponent num den ∧ (num : ℚ) < den * 2 ^ (unitExponent num den + 53) ∧
      (unitExponent num den = -1074 ∨ den * 2 ^ (unitExponent num den + 52) ≤ (num : ℚ)) := by
  obtain ⟨high, low⟩ := quotient_between hnum hden
  -- Both candidates are right for the exponent alone; the maximum moves both bounds up.
  have candidate (e : ℤ) (hhigh : (num : ℚ) < den * 2 ^ (e + 53))
      (hlow : den * 2 ^ (e + 52) ≤ (num : ℚ)) :
      -1074 ≤ max (-1074) e ∧ (num : ℚ) < den * 2 ^ (max (-1074) e + 53) ∧
        (max (-1074) e = -1074 ∨ den * 2 ^ (max (-1074) e + 52) ≤ (num : ℚ)) := by
    refine ⟨le_max_left _ _, hhigh.trans_le ?_, ?_⟩
    · gcongr
      · norm_num
      · exact le_max_right _ _
    · rcases le_total e (-1074) with he | he
      · exact .inl (max_eq_left he)
      · rw [max_eq_right he]
        exact .inr hlow
  unfold unitExponent
  dsimp only
  split
  · next hfits =>
    rw [shiftLeft_lt_shiftLeft_iff] at hfits
    refine candidate _ hfits (le_of_eq_of_le ?_ low)
    congr 2
    omega
  · next hfits =>
    rw [shiftLeft_lt_shiftLeft_iff, not_lt] at hfits
    refine candidate _ (lt_of_lt_of_eq high ?_) (le_of_eq_of_le ?_ hfits)
    · congr 2
      omega
    · congr 2
      omega

/-! ## Exact values -/

/-- The mantissa and exponent of a finite float: at most 53 bits, and a leading one above the least
exponent. -/
structure Magnitude.IsCanonical (v : Magnitude) : Prop where
  exponent : -1074 ≤ v.exponent
  mantissa : v.mantissa < 2 * leadingOne
  leading : v.exponent = -1074 ∨ leadingOne ≤ v.mantissa

theorem leadingOne_eq : (leadingOne : ℚ) = 2 ^ (52 : ℤ) := by
  norm_num [leadingOne]

theorem ne_zero_of_value {v : Magnitude} {num den : ℕ} (hden : den ≠ 0)
    (hmantissa : v.mantissa ≠ 0) (hvalue : (num : ℚ) = v.value * den) : num ≠ 0 := by
  rintro rfl
  have hmantissa' : (0 : ℚ) < v.mantissa := by exact_mod_cast Nat.pos_of_ne_zero hmantissa
  have hden' : (0 : ℚ) < den := by exact_mod_cast Nat.pos_of_ne_zero hden
  have hpos : (0 : ℚ) < v.value * den := by
    simp only [Magnitude.value]
    positivity
  rw [← hvalue, Nat.cast_zero] at hpos
  exact lt_irrefl 0 hpos

/-- The exponent of an exact value is found. -/
theorem unitExponent_of_value {v : Magnitude} (h : v.IsCanonical) {num den : ℕ} (hden : den ≠ 0)
    (hmantissa : v.mantissa ≠ 0) (hvalue : (num : ℚ) = v.value * den) :
    unitExponent num den = v.exponent := by
  have hden' : (0 : ℚ) < den := by exact_mod_cast Nat.pos_of_ne_zero hden
  have hnum : num ≠ 0 := ne_zero_of_value hden hmantissa hvalue
  obtain ⟨hmin, hhigh, hlow⟩ := unitExponent_spec hnum hden
  generalize unitExponent num den = e at *
  rw [hvalue, mul_comm, mul_lt_mul_iff_right₀ hden'] at hhigh
  rw [hvalue, mul_comm, mul_le_mul_iff_left₀ hden'] at hlow
  have hmin' := h.exponent
  -- A canonical value lies within the same powers of two.
  have below : v.value < 2 ^ (v.exponent + 53) := by
    have hlt : (v.mantissa : ℚ) < 2 ^ (53 : ℤ) := by
      have : (v.mantissa : ℚ) < 2 * leadingOne := by exact_mod_cast h.mantissa
      rw [leadingOne_eq] at this
      exact this.trans_eq (by norm_num)
    rw [Magnitude.value, add_comm, zpow_add₀ two_ne_zero]
    gcongr
  apply le_antisymm
  · rcases hlow with rfl | hlow
    · exact hmin'
    · have := (zpow_lt_zpow_iff_right₀ (one_lt_two (α := ℚ))).1 (hlow.trans_lt below)
      omega
  · rcases h.leading with hleading | hleading
    · omega
    · have above : (2 : ℚ) ^ (v.exponent + 52) ≤ v.value := by
        have hle : (2 : ℚ) ^ (52 : ℤ) ≤ v.mantissa := by
          rw [← leadingOne_eq]
          exact_mod_cast hleading
        rw [Magnitude.value, add_comm, zpow_add₀ two_ne_zero]
        gcongr
      have := (zpow_lt_zpow_iff_right₀ (one_lt_two (α := ℚ))).1 (above.trans_lt hhigh)
      omega

theorem roundHalfEven_mul_right {den : ℕ} (hden : 0 < den) (m : ℕ) :
    roundHalfEven (m * den) den = m := by
  unfold roundHalfEven
  dsimp only
  rw [Nat.mul_div_cancel m hden, Nat.mul_mod_left, if_pos (by omega)]

/-- **An exact value is found again.** -/
theorem nearestBits_of_value {v : Magnitude} (h : v.IsCanonical) {num den : ℕ} (hden : den ≠ 0)
    (hmantissa : v.mantissa ≠ 0) (hvalue : (num : ℚ) = v.value * den) :
    nearestBits num den =
      min infinityBits ((v.exponent + 1074).toNat * leadingOne + v.mantissa) := by
  have hnum : num ≠ 0 := ne_zero_of_value hden hmantissa hvalue
  have hexact : num <<< (-v.exponent).toNat = v.mantissa * (den <<< v.exponent.toNat) :=
    (shiftLeft_eq_mul_shiftLeft_iff num den v.mantissa v.exponent).2 hvalue
  have hpos : 0 < den <<< v.exponent.toNat := by
    rw [Nat.shiftLeft_eq]
    have := Nat.pos_of_ne_zero hden
    positivity
  unfold nearestBits
  rw [if_neg hnum, unitExponent_of_value h hden hmantissa hvalue]
  dsimp only
  rw [hexact, roundHalfEven_mul_right hpos]

theorem isCanonical_ofBits (bits : ℕ) : (Magnitude.ofBits bits).IsCanonical := by
  have hmod : bits % leadingOne < leadingOne := Nat.mod_lt _ (by decide)
  unfold Magnitude.ofBits
  dsimp only
  split
  · next hfield => exact ⟨le_rfl, by dsimp only; omega, .inl rfl⟩
  · next hfield =>
    refine ⟨?_, ?_, .inr ?_⟩
    · have : 1 ≤ bits / leadingOne := Nat.pos_of_ne_zero hfield
      simp only [Int.ofNat_eq_natCast]
      omega
    · dsimp only
      omega
    · exact Nat.le_add_right _ _

/-- Bits are put together from the exponent and the mantissa that they are taken apart into. -/
theorem bits_ofBits (bits : ℕ) :
    ((Magnitude.ofBits bits).exponent + 1074).toNat * leadingOne +
      (Magnitude.ofBits bits).mantissa = bits := by
  have hdiv := Nat.div_add_mod bits leadingOne
  unfold Magnitude.ofBits
  dsimp only
  split
  · next hfield =>
    rw [hfield, mul_zero, zero_add] at hdiv
    simpa using hdiv
  · next hfield =>
    have hexponent : (Int.ofNat (bits / leadingOne) - 1075 + 1074).toNat + 1 =
        bits / leadingOne := by
      have : 1 ≤ bits / leadingOne := Nat.pos_of_ne_zero hfield
      simp only [Int.ofNat_eq_natCast]
      omega
    dsimp only
    rw [← add_assoc, ← Nat.succ_mul, Nat.succ_eq_add_one, hexponent, mul_comm]
    exact hdiv

theorem mantissa_ofBits_ne_zero {bits : ℕ} (hbits : bits ≠ 0) :
    (Magnitude.ofBits bits).mantissa ≠ 0 := by
  intro hzero
  have hbits' := bits_ofBits bits
  rw [hzero, add_zero] at hbits'
  have hleading := (isCanonical_ofBits bits).leading
  rw [hzero] at hleading
  rcases hleading with hleading | hleading
  · rw [hleading] at hbits'
    exact hbits hbits'.symm
  · exact absurd hleading (by decide)

/-- The value of a finite magnitude is below the power of two at which infinity stands. -/
theorem value_ofBits_lt {bits : ℕ} (hbits : bits < infinityBits) :
    (Magnitude.ofBits bits).value < 2 ^ (1024 : ℤ) := by
  have hmantissa : ((Magnitude.ofBits bits).mantissa : ℚ) < 2 ^ (53 : ℤ) := by
    have hlt : ((Magnitude.ofBits bits).mantissa : ℚ) < 2 * leadingOne := by
      exact_mod_cast (isCanonical_ofBits bits).mantissa
    rw [leadingOne_eq] at hlt
    exact hlt.trans_eq (by norm_num)
  have hexponent : (Magnitude.ofBits bits).exponent ≤ 971 := by
    have hinfinity : infinityBits = 2047 * leadingOne := by decide
    have hfield : bits / leadingOne < 2047 := by
      rw [Nat.div_lt_iff_lt_mul (by decide), ← hinfinity]
      exact hbits
    unfold Magnitude.ofBits
    dsimp only
    split
    · norm_num
    · simp only [Int.ofNat_eq_natCast]
      omega
  calc (Magnitude.ofBits bits).value < 2 ^ (53 : ℤ) * 2 ^ (Magnitude.ofBits bits).exponent := by
        rw [Magnitude.value]
        gcongr
    _ ≤ 2 ^ (53 : ℤ) * 2 ^ (971 : ℤ) := by
        gcongr
        norm_num
    _ = 2 ^ (1024 : ℤ) := by rw [← zpow_add₀ two_ne_zero]; norm_num

/-- A magnitude that is not zero is at least the least one. -/
theorem le_value_ofBits {bits : ℕ} (hbits : bits ≠ 0) :
    2 ^ (-1074 : ℤ) ≤ (Magnitude.ofBits bits).value := by
  have hmantissa : (1 : ℚ) ≤ (Magnitude.ofBits bits).mantissa := by
    exact_mod_cast Nat.pos_of_ne_zero (mantissa_ofBits_ne_zero hbits)
  have hexponent := (isCanonical_ofBits bits).exponent
  calc (2 : ℚ) ^ (-1074 : ℤ) ≤ 2 ^ (Magnitude.ofBits bits).exponent := by
        gcongr
        norm_num
    _ ≤ (Magnitude.ofBits bits).value := le_mul_of_one_le_left (by positivity) hmantissa

/-! ## Decimals -/

theorem value_trim (d : Scientific) : d.trim.value = d.value := by
  fun_induction Scientific.trim d with
  | case1 d hzero => simp [Scientific.value, hzero]
  | case2 d hpos hten ih =>
    rw [ih]
    have hdigits : (d.digits : ℚ) = (d.digits / 10 : ℕ) * 10 := by
      exact_mod_cast (Nat.div_mul_cancel (Nat.dvd_of_mod_eq_zero hten)).symm
    simp only [Scientific.value]
    rw [hdigits, zpow_add_one₀ (by norm_num), mul_assoc, mul_comm (10 : ℚ)]
  | case3 d hpos hten => rfl

/-- The decimal without trailing zeros has none. -/
theorem trim_trim (d : Scientific) : d.trim.trim = d.trim := by
  fun_induction Scientific.trim d with
  | case1 d hzero => rw [Scientific.trim, dif_pos rfl]
  | case2 d hpos hten ih => exact ih
  | case3 d hpos hten => rw [Scientific.trim, dif_neg hpos, if_neg hten]

/-- Zeros put behind a decimal are trailing zeros. -/
theorem trim_mul_pow (n : ℕ) (e : ℤ) (k : ℕ) :
    Scientific.trim ⟨n * 10 ^ k, e - k⟩ = Scientific.trim ⟨n, e⟩ := by
  induction k with
  | zero => simp
  | succ k ih =>
    by_cases hn : n = 0
    · rw [Scientific.trim, dif_pos (by simp [hn]), Scientific.trim, dif_pos hn]
    · have hten : n * 10 ^ (k + 1) = n * 10 ^ k * 10 := by rw [pow_succ, mul_assoc]
      have hpos : n * 10 ^ k * 10 ≠ 0 := by positivity
      have hexponent : e - ((k + 1 : ℕ) : ℤ) + 1 = e - k := by omega
      rw [hten, Scientific.trim, dif_neg hpos, if_pos (Nat.mul_mod_left _ _)]
      dsimp only
      rw [Nat.mul_div_cancel _ (by decide), hexponent, ih]

/-- The exact decimal of a magnitude has its value. -/
theorem value_exact (v : Magnitude) : v.exact.value = v.value := by
  obtain ⟨m, e⟩ := v
  unfold Magnitude.exact Magnitude.value Scientific.value
  dsimp only
  split
  · next hneg =>
    obtain ⟨n, rfl⟩ : ∃ n : ℕ, e = -n := ⟨(-e).toNat, by omega⟩
    have hten : (10 : ℚ) ^ n = 5 ^ n * 2 ^ n := by rw [← mul_pow]; norm_num
    rw [neg_neg, Int.toNat_natCast, zpow_neg, zpow_neg, zpow_natCast, zpow_natCast, hten,
      Nat.pow_eq]
    push_cast
    field_simp
  · next hneg =>
    obtain ⟨n, rfl⟩ : ∃ n : ℕ, e = n := ⟨e.toNat, by omega⟩
    rw [Int.toNat_natCast, Nat.shiftLeft_eq, zpow_zero, mul_one, zpow_natCast]
    push_cast
    rfl

/-- The value of a decimal lies within the powers of ten that its number of digits gives. -/
theorem value_between (d : Scientific) (hdigits : d.digits ≠ 0) :
    10 ^ (d.exponent + (Nat.toDigits 10 d.digits).length - 1) ≤ d.value ∧
      d.value < 10 ^ (d.exponent + (Nat.toDigits 10 d.digits).length) := by
  have hlength : 0 < (Nat.toDigits 10 d.digits).length := Nat.length_toDigits_pos
  have high : d.digits < 10 ^ (Nat.toDigits 10 d.digits).length :=
    (Nat.length_toDigits_le_iff (by decide) hlength).1 le_rfl
  have low : 10 ^ ((Nat.toDigits 10 d.digits).length - 1) ≤ d.digits := by
    rcases Nat.eq_zero_or_pos ((Nat.toDigits 10 d.digits).length - 1) with hzero | hpos
    · rw [hzero, pow_zero]
      exact Nat.pos_of_ne_zero hdigits
    · rw [← not_lt, ← Nat.length_toDigits_le_iff (by decide) hpos]
      omega
  have ten : (10 : ℚ) ≠ 0 := by norm_num
  constructor
  · have hexponent : d.exponent + (Nat.toDigits 10 d.digits).length - 1 =
        ((Nat.toDigits 10 d.digits).length - 1 : ℕ) + d.exponent := by omega
    have low' : (10 : ℚ) ^ ((Nat.toDigits 10 d.digits).length - 1) ≤ d.digits := by
      exact_mod_cast low
    rw [hexponent, zpow_add₀ ten, zpow_natCast, Scientific.value]
    gcongr
  · have high' : (d.digits : ℚ) < 10 ^ (Nat.toDigits 10 d.digits).length := by
      exact_mod_cast high
    rw [add_comm, zpow_add₀ ten, zpow_natCast, Scientific.value]
    gcongr

theorem two_pow_lt_ten_pow : (2 : ℚ) ^ (1024 : ℤ) < 10 ^ (310 : ℤ) := by
  have h : 2 ^ 1024 < 10 ^ 310 := by decide +kernel
  rw [zpow_ofNat, zpow_ofNat]
  exact_mod_cast h

theorem ten_pow_lt_two_pow : (10 : ℚ) ^ (-330 : ℤ) < 2 ^ (-1074 : ℤ) := by
  have h : 2 ^ 1074 < 10 ^ 330 := by decide +kernel
  rw [zpow_neg, zpow_neg, zpow_ofNat, zpow_ofNat]
  refine inv_strictAnti₀ (by positivity) ?_
  exact_mod_cast h

/-- The exponent alone settles the result only for values that no magnitude has. -/
theorem exponent_between {d : Scientific} (hdigits : d.digits ≠ 0)
    (hle : (2 : ℚ) ^ (-1074 : ℤ) ≤ d.value) (hlt : d.value < 2 ^ (1024 : ℤ)) :
    d.exponent + (Nat.toDigits 10 d.digits).length ≤ 310 ∧
      -330 ≤ d.exponent + (Nat.toDigits 10 d.digits).length := by
  obtain ⟨low, high⟩ := value_between d hdigits
  constructor
  · by_contra htop
    have hmono : (10 : ℚ) ^ (310 : ℤ) ≤
        10 ^ (d.exponent + (Nat.toDigits 10 d.digits).length - 1) := by
      gcongr
      · norm_num
      · omega
    exact absurd (hlt.trans (two_pow_lt_ten_pow.trans_le (hmono.trans low))) (lt_irrefl _)
  · by_contra hbottom
    have hmono : (10 : ℚ) ^ (d.exponent + (Nat.toDigits 10 d.digits).length) ≤
        10 ^ (-330 : ℤ) := by
      gcongr
      · norm_num
      · omega
    exact absurd (high.trans_le (hmono.trans (ten_pow_lt_two_pow.le.trans hle))) (lt_irrefl _)

/-- The numerator and the denominator that are rounded have the value as their quotient. -/
theorem numerator_eq (d : Scientific) :
    ((d.digits * Nat.pow 10 d.exponent.toNat : ℕ) : ℚ) =
      d.value * (Nat.pow 10 (-d.exponent).toNat : ℕ) := by
  rw [Scientific.value, Nat.pow_eq, Nat.pow_eq]
  push_cast
  rw [mul_assoc, ← zpow_natCast, ← zpow_natCast, ← zpow_add₀ (by norm_num)]
  congr 2
  omega

/-- A decimal with the value of a finite magnitude reads as that magnitude. -/
theorem toBits_of_value {d : Scientific} {bits : ℕ} (hbits : bits < infinityBits)
    (hvalue : d.value = (Magnitude.ofBits bits).value) : d.toBits = bits := by
  unfold Scientific.toBits
  by_cases hdigits : d.digits = 0
  · rw [if_pos hdigits]
    by_contra hne
    have hle := le_value_ofBits (Ne.symm hne)
    rw [← hvalue, Scientific.value, hdigits, Nat.cast_zero, zero_mul] at hle
    exact absurd hle (not_le.2 (by positivity))
  rw [if_neg hdigits]
  dsimp only
  have hpos : 0 < d.value := by
    have : (0 : ℚ) < d.digits := by exact_mod_cast Nat.pos_of_ne_zero hdigits
    simp only [Scientific.value]
    positivity
  have hne : bits ≠ 0 := by
    rintro rfl
    have hzero : (Magnitude.ofBits 0).value = 0 := by
      simp [Magnitude.value, Magnitude.ofBits]
    rw [hvalue, hzero] at hpos
    exact lt_irrefl 0 hpos
  have hlt := value_ofBits_lt hbits
  have hle := le_value_ofBits hne
  rw [← hvalue] at hlt hle
  obtain ⟨htop, hbottom⟩ := exponent_between hdigits hle hlt
  rw [if_neg (not_lt.2 htop), if_neg (not_lt.2 hbottom)]
  have hquotient := numerator_eq d
  rw [hvalue] at hquotient
  have hden : Nat.pow 10 (-d.exponent).toNat ≠ 0 := pow_ne_zero _ (by decide)
  rw [nearestBits_of_value (isCanonical_ofBits bits) hden (mantissa_ofBits_ne_zero hne) hquotient,
    bits_ofBits, min_eq_right hbits.le]

/-! ## The decimal that is printed -/

/-- The decimal that is found on a grid was tried. -/
theorem toBits_closestOnGrid? {tie : Tie} {bits : ℕ} {v : Magnitude} {grid : ℤ} {d : Scientific}
    (h : closestOnGrid? tie bits v grid = some d) : d.toBits = bits ∧ d.trim = d := by
  unfold closestOnGrid? at h
  dsimp only at h
  split at h
  · next hbelow habove =>
    cases h
    split
    · exact ⟨beq_iff_eq.1 hbelow, trim_trim _⟩
    · exact ⟨beq_iff_eq.1 habove, trim_trim _⟩
  · next hbelow _ =>
    cases h
    exact ⟨beq_iff_eq.1 hbelow, trim_trim _⟩
  · next _ habove =>
    cases h
    exact ⟨beq_iff_eq.1 habove, trim_trim _⟩
  · cases h

/-- **The decimal that is printed reads back**, and has no trailing zeros. -/
theorem toBits_shortest (tie : Tie) {bits : ℕ} (hbits : bits < infinityBits) :
    (shortest tie bits).toBits = bits ∧ (shortest tie bits).trim = shortest tie bits := by
  unfold shortest
  split
  · next hzero =>
    subst hzero
    exact ⟨rfl, by rw [Scientific.trim, dif_pos rfl]⟩
  · dsimp only
    rcases hfound : (List.range 17).findSome? fun (i : ℕ) =>
      closestOnGrid? tie bits (Magnitude.ofBits bits)
        ((Magnitude.ofBits bits).leadingExponent - 1 - i) with _ | d
    · rw [Option.getD_none]
      refine ⟨toBits_of_value hbits ?_, trim_trim _⟩
      rw [value_trim, value_exact]
    · rw [Option.getD_some]
      obtain ⟨i, -, hi⟩ := List.exists_of_findSome?_eq_some hfound
      exact toBits_closestOnGrid? hi

end FlatQasm.Decimal
