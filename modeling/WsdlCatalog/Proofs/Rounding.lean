/-
  WsdlCatalog.Proofs.Rounding — which number is nearest to a decimal.

  The nearest number is a function of the quotient: it is the same for all terms that
  give the quotient (`ofRatio_congr`), so zeros at the end of the digits do not count
  (`ofDecimal_zeros`), and the sign does not count either (`ofDecimal_negative`).

  Proved: digits that are exactly a number of fifty-three binary digits read as it
  (`ofDecimal_exact`).
-/

import Mathlib.Algebra.Order.Field.Power
import Mathlib.Tactic.FieldSimp
import Mathlib.Tactic.Linarith
import Mathlib.Tactic.NormNum
import Mathlib.Tactic.Positivity
import Mathlib.Tactic.Ring
import Mathlib.Data.Rat.Cast.Order
import WsdlCatalog.Binary64

namespace WsdlCatalog

theorem roundDiv_mul_mul {c : Nat} (hc : 0 < c) (num den : Nat) :
    roundDiv (c * num) (c * den) = roundDiv num den := by
  have hquot : c * num / (c * den) = num / den := Nat.mul_div_mul_left num den hc
  have hrem : c * num % (c * den) = c * (num % den) := Nat.mul_mod_mul_left c num den
  have hlt : 2 * (c * (num % den)) < c * den ↔ 2 * (num % den) < den := by
    rw [Nat.mul_left_comm]
    exact Nat.mul_lt_mul_left hc
  have heq : 2 * (c * (num % den)) = c * den ↔ 2 * (num % den) = den := by
    rw [Nat.mul_left_comm]
    exact Nat.mul_right_inj hc.ne'
  have hbeq : (2 * (c * (num % den)) == c * den) = (2 * (num % den) == den) := by
    rw [Bool.eq_iff_iff, beq_iff_eq, beq_iff_eq]
    exact heq
  simp only [roundDiv, hquot, hrem, hlt, hbeq]

/-- Rounding looks at the quotient alone. -/
theorem roundDiv_congr {num den num' den' : Nat} (hd : 0 < den) (hd' : 0 < den')
    (h : num * den' = num' * den) : roundDiv num den = roundDiv num' den' := by
  calc roundDiv num den = roundDiv (den' * num) (den' * den) := (roundDiv_mul_mul hd' num den).symm
    _ = roundDiv (den * num') (den * den') := by
      rw [Nat.mul_comm den' num, h, Nat.mul_comm num' den, Nat.mul_comm den' den]
    _ = roundDiv num' den' := roundDiv_mul_mul hd num' den'

namespace Binary64

theorem scaled_den_pos {num den : Nat} (hd : 0 < den) (exponent : Int) :
    0 < (scaled num den exponent).2 := Nat.mul_pos hd (Nat.pow_pos Nat.two_pos)

/-- The scaled quotient is the quotient divided by the power of two. -/
theorem scaled_ratio (num den : Nat) (exponent : Int) :
    ((scaled num den exponent).1 / (scaled num den exponent).2 : ℚ) = num / den / 2 ^ exponent := by
  show ((num * Nat.pow 2 (-exponent).toNat : Nat) : ℚ) / ((den * Nat.pow 2 exponent.toNat : Nat) : ℚ) = _
  have hpow : (2 : ℚ) ^ exponent = 2 ^ exponent.toNat / 2 ^ (-exponent).toNat := by
    rw [← zpow_natCast, ← zpow_natCast, ← zpow_sub₀ two_ne_zero]
    congr 1
    omega
  rw [hpow, Nat.pow_eq, Nat.pow_eq]
  push_cast
  rw [div_div_eq_mul_div, div_mul_eq_mul_div, div_div]

/-- The quotient lies between two powers of two that its terms tell. -/
theorem ratio_log2 {num den : Nat} (hn : num ≠ 0) (hd : den ≠ 0) :
    (2 : ℚ) ^ ((num.log2 : Int) - den.log2 - 1) < num / den ∧
      (num / den : ℚ) < 2 ^ ((num.log2 : Int) - den.log2 + 1) := by
  have hden : (0 : ℚ) < den := by positivity
  have numLow : (2 : ℚ) ^ num.log2 ≤ num := mod_cast Nat.log2_self_le hn
  have numHigh : (num : ℚ) < 2 ^ (num.log2 + 1) := mod_cast Nat.lt_log2_self
  have denLow : (2 : ℚ) ^ den.log2 ≤ den := mod_cast Nat.log2_self_le hd
  have denHigh : (den : ℚ) < 2 ^ (den.log2 + 1) := mod_cast Nat.lt_log2_self
  constructor
  · have split : (2 : ℚ) ^ ((num.log2 : Int) - den.log2 - 1) = 2 ^ num.log2 / 2 ^ (den.log2 + 1) := by
      rw [← zpow_natCast, ← zpow_natCast, ← zpow_sub₀ two_ne_zero]
      congr 1
      push_cast
      ring
    rw [split]
    exact div_lt_div₀' numLow denHigh (by positivity) hden
  · have split : (2 : ℚ) ^ ((num.log2 : Int) - den.log2 + 1) = 2 ^ (num.log2 + 1) / 2 ^ den.log2 := by
      rw [← zpow_natCast, ← zpow_natCast, ← zpow_sub₀ two_ne_zero]
      congr 1
      push_cast
      ring
    rw [split]
    exact div_lt_div₀ numHigh denLow (by positivity) (by positivity)

theorem le_div_iff_ratio {num den : Nat} (hd : 0 < den) (k : Nat) :
    k ≤ num / den ↔ (k : ℚ) ≤ num / den := by
  have hden : (0 : ℚ) < den := by exact_mod_cast hd
  rw [Nat.le_div_iff_mul_le hd, le_div_iff₀ hden]
  exact_mod_cast Iff.rfl

/-- With its exponent a quotient has a mantissa of fifty-three digits. -/
theorem exponentOf_spec {num den : Nat} (hn : num ≠ 0) (hd : den ≠ 0) :
    (2 : ℚ) ^ 52 ≤ num / den / 2 ^ exponentOf num den ∧
      (num / den / 2 ^ exponentOf num den : ℚ) < 2 ^ 53 := by
  obtain ⟨low, high⟩ := ratio_log2 hn hd
  generalize he : (num.log2 : Int) - den.log2 - 53 = estimate
  have pos : (0 : ℚ) < 2 ^ estimate := by positivity
  have low' : (2 : ℚ) ^ 52 < num / den / 2 ^ estimate := by
    rw [lt_div_iff₀ pos]
    have : (2 : ℚ) ^ 52 * 2 ^ estimate = 2 ^ ((num.log2 : Int) - den.log2 - 1) := by
      rw [← zpow_natCast, ← zpow_add₀ two_ne_zero, ← he]
      congr 1
      push_cast
      ring
    rw [this]
    exact low
  have high' : (num / den / 2 ^ estimate : ℚ) < 2 ^ 54 := by
    rw [div_lt_iff₀ pos]
    have : (2 : ℚ) ^ 54 * 2 ^ estimate = 2 ^ ((num.log2 : Int) - den.log2 + 1) := by
      rw [← zpow_natCast, ← zpow_add₀ two_ne_zero, ← he]
      congr 1
      push_cast
      ring
    rw [this]
    exact high
  have hpos : 0 < (scaled num den estimate).2 := scaled_den_pos (Nat.pos_of_ne_zero hd) estimate
  have test : Nat.pow 2 53 ≤ (scaled num den estimate).1 / (scaled num den estimate).2 ↔ _ :=
    le_div_iff_ratio hpos (Nat.pow 2 53)
  rw [scaled_ratio] at test
  have hcast : ((Nat.pow 2 53 : Nat) : ℚ) = 2 ^ 53 := by norm_num
  rw [hcast] at test
  unfold exponentOf
  simp only [he]
  split
  · rename_i h
    have h' := test.mp h
    rw [zpow_add_one₀ two_ne_zero, ← div_div]
    constructor
    · rw [le_div_iff₀ two_pos]
      linarith
    · rw [div_lt_iff₀ two_pos]
      linarith
  · rename_i h
    have h' := not_le.mp (fun h'' => h (test.mpr h''))
    exact ⟨low'.le, h'⟩

/-- No other exponent gives such a mantissa. -/
theorem exponentOf_unique {num den : Nat} (hn : num ≠ 0) (hd : den ≠ 0) {exponent : Int}
    (low : (2 : ℚ) ^ 52 ≤ num / den / 2 ^ exponent) (high : (num / den / 2 ^ exponent : ℚ) < 2 ^ 53) :
    exponentOf num den = exponent := by
  obtain ⟨low', high'⟩ := exponentOf_spec hn hd
  have below : ∀ {i j : Int}, (2 : ℚ) ^ 52 ≤ num / den / 2 ^ i → (num / den / 2 ^ j : ℚ) < 2 ^ 53 →
      i ≤ j := by
    intro i j hi hj
    rw [le_div_iff₀ (by positivity)] at hi
    rw [div_lt_iff₀ (by positivity)] at hj
    have := hi.trans_lt hj
    rw [← zpow_natCast, ← zpow_natCast, ← zpow_add₀ two_ne_zero, ← zpow_add₀ two_ne_zero,
      zpow_lt_zpow_iff_right₀ one_lt_two] at this
    push_cast at this
    omega
  exact le_antisymm (below low' high) (below low high')


/-- Which number is nearest depends on the quotient alone. -/
theorem ofRatio_congr (negative : Bool) {num den num' den' : Nat} (hd : den ≠ 0) (hd' : den' ≠ 0)
    (h : num * den' = num' * den) : ofRatio negative num den = ofRatio negative num' den' := by
  by_cases hn : num = 0
  · have hn' : num' = 0 := by
      rw [hn, Nat.zero_mul] at h
      exact (Nat.mul_eq_zero.mp h.symm).resolve_right hd
    rw [hn, hn']
    rfl
  · have hn' : num' ≠ 0 := by
      intro e
      rw [e, Nat.zero_mul] at h
      exact (Nat.mul_ne_zero hn hd') h
    have hq : (num / den : ℚ) = num' / den' := by
      rw [div_eq_div_iff (by exact_mod_cast hd) (by exact_mod_cast hd')]
      exact_mod_cast h
    have hexp : exponentOf num den = exponentOf num' den' := by
      obtain ⟨low, high⟩ := exponentOf_spec hn' hd'
      rw [← hq] at low high
      exact exponentOf_unique hn hd low high
    have hround : ∀ e, roundDiv (scaled num den e).1 (scaled num den e).2
        = roundDiv (scaled num' den' e).1 (scaled num' den' e).2 := by
      intro e
      apply roundDiv_congr (scaled_den_pos (Nat.pos_of_ne_zero hd) e)
        (scaled_den_pos (Nat.pos_of_ne_zero hd') e)
      show num * _ * (den' * _) = num' * _ * (den * _)
      rw [Nat.mul_mul_mul_comm, h, Nat.mul_mul_mul_comm]
    have hz : (num == 0) = (num' == 0) := by
      rw [beq_false_of_ne hn, beq_false_of_ne hn']
    simp only [ofRatio, hz, hexp, hround]

/-- What sixty-four bits can say: a mantissa is short only beside the least exponent. -/
def Canonical : Binary64 → Prop
  | finite _ mantissa exponent =>
    mantissa < 2 ^ 53 ∧ (2 ^ 52 ≤ mantissa ∨ exponent = leastExponent) ∧
      leastExponent ≤ exponent ∧ exponent ≤ greatestExponent
  | _ => True

/-- A quotient that is a number is its own nearest number. -/
theorem ofRatio_exact {negative : Bool} {mantissa num den : Nat} {exponent : Int}
    (h : (finite negative mantissa exponent).Canonical) (hm : mantissa ≠ 0) (hd : den ≠ 0)
    (hq : (num / den : ℚ) = mantissa * 2 ^ exponent) :
    ofRatio negative num den = finite negative mantissa exponent := by
  obtain ⟨small, full, least, greatest⟩ := h
  have hn : num ≠ 0 := by
    rintro rfl
    rw [Nat.cast_zero, zero_div] at hq
    have : (mantissa : ℚ) ≠ 0 := by exact_mod_cast hm
    exact (mul_ne_zero this (zpow_ne_zero _ two_ne_zero)) hq.symm
  have quotient : (num / den / 2 ^ exponent : ℚ) = mantissa := by
    rw [hq, mul_div_cancel_right₀ _ (zpow_ne_zero _ two_ne_zero)]
  have hmax : max (exponentOf num den) leastExponent = exponent := by
    rcases full with normal | rfl
    · have same : exponentOf num den = exponent := by
        refine exponentOf_unique hn hd ?_ ?_
        · rw [quotient]
          exact_mod_cast normal
        · rw [quotient]
          exact_mod_cast small
      rw [same, max_eq_left least]
    · obtain ⟨low, -⟩ := exponentOf_spec hn hd
      apply max_eq_right
      have high : (num / den : ℚ) < 2 ^ 53 * 2 ^ leastExponent := by
        rw [hq]
        have : (mantissa : ℚ) < 2 ^ 53 := by exact_mod_cast small
        exact (mul_lt_mul_iff_left₀ (by positivity)).mpr this
      rw [le_div_iff₀ (by positivity)] at low
      have := low.trans_lt high
      rw [← zpow_natCast, ← zpow_natCast, ← zpow_add₀ two_ne_zero, ← zpow_add₀ two_ne_zero,
        zpow_lt_zpow_iff_right₀ one_lt_two] at this
      push_cast at this
      omega
  have hpos : 0 < (scaled num den exponent).2 := scaled_den_pos (Nat.pos_of_ne_zero hd) exponent
  have hround : roundDiv (scaled num den exponent).1 (scaled num den exponent).2 = mantissa := by
    have ratio := scaled_ratio num den exponent
    rw [quotient, div_eq_iff (by exact_mod_cast hpos.ne')] at ratio
    have : (scaled num den exponent).1 = mantissa * (scaled num den exponent).2 := by
      exact_mod_cast ratio
    rw [this]
    exact roundDiv_mul _ _ hpos
  have hz : (num == 0) = false := beq_false_of_ne hn
  have hcarry : (mantissa == Nat.pow 2 53) = false := beq_false_of_ne small.ne
  have hover : ¬ greatestExponent < exponent := not_lt.mpr greatest
  simp only [ofRatio, hz, hmax, hround, hcarry, Bool.false_eq_true, if_false, if_neg hover]

/-! ## Decimals -/

theorem length_toDigits_mul_pow {digits : Nat} (h : digits ≠ 0) (k : Nat) :
    (Nat.toDigits 10 (digits * 10 ^ k)).length = (Nat.toDigits 10 digits).length + k := by
  induction k with
  | zero => rw [Nat.pow_zero, Nat.mul_one, Nat.add_zero]
  | succ k ih =>
    have hpos : 0 < digits * 10 ^ k := by positivity
    have hstep : digits * 10 ^ (k + 1) = 10 * (digits * 10 ^ k) + 0 := by ring
    rw [hstep, ← Nat.toDigits_append_toDigits (by decide) hpos (by decide), List.length_append, ih]
    rfl

/-- Zeros at the end of the digits count for nothing once the power is less by as many. -/
theorem ofDecimal_zeros (negative : Bool) (digits k : Nat) (power : Int) :
    ofDecimal negative (digits * 10 ^ k) (power - k) = ofDecimal negative digits power := by
  by_cases h : digits = 0
  · rw [h, Nat.zero_mul]
    rfl
  · have hne : digits * 10 ^ k ≠ 0 := by positivity
    have hz : (digits * 10 ^ k == 0) = (digits == 0) := by
      rw [beq_false_of_ne h, beq_false_of_ne hne]
    have places : ((Nat.toDigits 10 (digits * 10 ^ k)).length : Int) + (power - k)
        = (Nat.toDigits 10 digits).length + power := by
      rw [length_toDigits_mul_pow h]
      push_cast
      ring
    have ratio : ofRatio negative (digits * 10 ^ k * Nat.pow 10 (power - k).toNat)
          (Nat.pow 10 (-(power - k)).toNat)
        = ofRatio negative (digits * Nat.pow 10 power.toNat) (Nat.pow 10 (-power).toNat) := by
      apply ofRatio_congr
      · exact (Nat.pow_pos (by decide)).ne'
      · exact (Nat.pow_pos (by decide)).ne'
      · have split : k + (power - k).toNat + (-power).toNat = power.toNat + (-(power - k)).toNat := by
          omega
        simp only [Nat.pow_eq]
        rw [Nat.mul_assoc digits, Nat.mul_assoc digits, Nat.mul_assoc digits, ← Nat.pow_add,
          ← Nat.pow_add, ← Nat.pow_add, split]
    simp only [ofDecimal, hz, places, ratio]

theorem tenPow_le_least : (10 : ℚ) ^ (-330 : Int) ≤ 2 ^ leastExponent := by
  have h : (2 : ℚ) ^ 1074 ≤ 10 ^ 330 := by
    exact_mod_cast (by decide +kernel : (2 : Nat) ^ 1074 ≤ 10 ^ 330)
  show (10 : ℚ) ^ (-((330 : Nat) : Int)) ≤ 2 ^ (-((1074 : Nat) : Int))
  rw [zpow_neg, zpow_neg, zpow_natCast, zpow_natCast]
  exact inv_anti₀ (by positivity) h

theorem greatest_le_tenPow : (2 : ℚ) ^ 53 * 2 ^ greatestExponent ≤ 10 ^ (330 : Int) := by
  have h : (2 : ℚ) ^ 53 * 2 ^ 971 ≤ 10 ^ 330 := by
    exact_mod_cast (by decide +kernel : (2 : Nat) ^ 53 * 2 ^ 971 ≤ 10 ^ 330)
  show (2 : ℚ) ^ 53 * 2 ^ ((971 : Nat) : Int) ≤ 10 ^ ((330 : Nat) : Int)
  rw [zpow_natCast, zpow_natCast]
  exact h

/-- Where the first digit of a number stands. -/
theorem places_bound {digits : Nat} (h : digits ≠ 0) :
    10 ^ ((Nat.toDigits 10 digits).length - 1) ≤ digits ∧
      digits < 10 ^ (Nat.toDigits 10 digits).length := by
  have hpos := Nat.length_toDigits_pos (b := 10) (n := digits)
  constructor
  · by_cases one : (Nat.toDigits 10 digits).length = 1
    · rw [one]
      exact Nat.one_le_iff_ne_zero.mpr h
    · by_contra hlt
      have := (Nat.length_toDigits_le_iff (b := 10) (by decide) (by omega)).mpr (not_le.mp hlt)
      omega
  · exact (Nat.length_toDigits_le_iff (by decide) hpos).mp le_rfl

/-- The point of the digits of a number is where numbers have it. -/
theorem point_bounds {negative : Bool} {mantissa digits : Nat} {exponent power : Int}
    (h : (finite negative mantissa exponent).Canonical) (hm : mantissa ≠ 0) (hd : digits ≠ 0)
    (hq : (digits * 10 ^ power : ℚ) = mantissa * 2 ^ exponent) :
    (-330 : Int) ≤ (Nat.toDigits 10 digits).length + power ∧
      ((Nat.toDigits 10 digits).length : Int) + power ≤ 330 := by
  obtain ⟨low, high⟩ := places_bound hd
  have hpos := Nat.length_toDigits_pos (b := 10) (n := digits)
  obtain ⟨small, -, least, greatest⟩ := h
  generalize (Nat.toDigits 10 digits).length = places at low high hpos ⊢
  have mantissaPos : (1 : ℚ) ≤ mantissa := by exact_mod_cast Nat.one_le_iff_ne_zero.mpr hm
  have mantissaSmall : (mantissa : ℚ) < 2 ^ 53 := by exact_mod_cast small
  constructor
  · by_contra hlt
    have tiny : (digits * 10 ^ power : ℚ) < 10 ^ (-330 : Int) := by
      calc (digits * 10 ^ power : ℚ) < 10 ^ places * 10 ^ power := by
            have : (digits : ℚ) < 10 ^ places := by exact_mod_cast high
            exact (mul_lt_mul_iff_left₀ (by positivity)).mpr this
        _ = 10 ^ ((places : Int) + power) := by rw [zpow_add₀ (by norm_num), zpow_natCast]
        _ ≤ 10 ^ (-330 : Int) := zpow_le_zpow_right₀ (by norm_num) (by omega)
    have big : (2 : ℚ) ^ leastExponent ≤ mantissa * 2 ^ exponent := by
      calc (2 : ℚ) ^ leastExponent ≤ 2 ^ exponent := zpow_le_zpow_right₀ (by norm_num) least
        _ ≤ mantissa * 2 ^ exponent := le_mul_of_one_le_left (by positivity) mantissaPos
    rw [hq] at tiny
    exact (big.trans_lt tiny).not_ge tenPow_le_least
  · by_contra hlt
    have huge : (10 : ℚ) ^ (330 : Int) ≤ digits * 10 ^ power := by
      calc (10 : ℚ) ^ (330 : Int) ≤ 10 ^ (((places - 1 : Nat) : Int) + power) :=
            zpow_le_zpow_right₀ (by norm_num) (by omega)
        _ = 10 ^ (places - 1) * 10 ^ power := by rw [zpow_add₀ (by norm_num), zpow_natCast]
        _ ≤ digits * 10 ^ power := by
            have : (10 : ℚ) ^ (places - 1) ≤ digits := by exact_mod_cast low
            exact mul_le_mul_of_nonneg_right this (by positivity)
    have small' : (mantissa * 2 ^ exponent : ℚ) < 2 ^ 53 * 2 ^ greatestExponent := by
      calc (mantissa * 2 ^ exponent : ℚ) < 2 ^ 53 * 2 ^ exponent :=
            (mul_lt_mul_iff_left₀ (by positivity)).mpr mantissaSmall
        _ ≤ 2 ^ 53 * 2 ^ greatestExponent :=
            mul_le_mul_of_nonneg_left (zpow_le_zpow_right₀ (by norm_num) greatest) (by positivity)
    rw [← hq] at small'
    exact (huge.trans_lt small').not_ge greatest_le_tenPow

/-- Digits that give a number exactly read as it. -/
theorem ofDecimal_exact {negative : Bool} {mantissa digits : Nat} {exponent power : Int}
    (h : (finite negative mantissa exponent).Canonical) (hm : mantissa ≠ 0)
    (hq : (digits * 10 ^ power : ℚ) = mantissa * 2 ^ exponent) :
    ofDecimal negative digits power = finite negative mantissa exponent := by
  have hd : digits ≠ 0 := by
    rintro rfl
    rw [Nat.cast_zero, zero_mul] at hq
    have : (mantissa : ℚ) ≠ 0 := by exact_mod_cast hm
    exact (mul_ne_zero this (zpow_ne_zero _ two_ne_zero)) hq.symm
  have ratio : ofRatio negative (digits * Nat.pow 10 power.toNat) (Nat.pow 10 (-power).toNat)
      = finite negative mantissa exponent := by
    apply ofRatio_exact h hm (Nat.pow_pos (by decide)).ne'
    rw [← hq]
    have hpow : (10 : ℚ) ^ power = 10 ^ power.toNat / 10 ^ (-power).toNat := by
      rw [← zpow_natCast, ← zpow_natCast, ← zpow_sub₀ (by norm_num)]
      congr 1
      omega
    simp only [hpow, Nat.pow_eq]
    push_cast
    rw [mul_div_assoc]
  obtain ⟨above, below⟩ := point_bounds h hm hd hq
  have hz : (digits == 0) = false := beq_false_of_ne hd
  simp only [ofDecimal, hz, ratio, Bool.false_or, decide_eq_true_eq, if_neg (not_lt.mpr above),
    if_neg (not_lt.mpr below)]

theorem ofRatio_negative {num den mantissa : Nat} {exponent : Int}
    (h : ofRatio false num den = finite false mantissa exponent) (negative : Bool) :
    ofRatio negative num den = finite negative mantissa exponent := by
  by_cases hn : (num == 0) = true
  · simp only [ofRatio, if_pos hn, zero] at h ⊢
    cases h
    rfl
  · simp only [ofRatio, if_neg hn] at h ⊢
    generalize (if roundDiv _ _ == Nat.pow 2 53 then _ else _ : Nat × Int) = rounded at h ⊢
    by_cases hover : greatestExponent < rounded.2
    · rw [if_pos hover] at h
      cases h
    · rw [if_neg hover] at h ⊢
      cases h
      rfl

/-- The sign of a number has no part in its reading. -/
theorem ofDecimal_negative {digits mantissa : Nat} {power exponent : Int}
    (h : ofDecimal false digits power = finite false mantissa exponent) (negative : Bool) :
    ofDecimal negative digits power = finite negative mantissa exponent := by
  unfold ofDecimal at h ⊢
  simp only at h ⊢
  split at h
  · rename_i hz
    rw [if_pos hz]
    cases h
    rfl
  · rename_i hz
    rw [if_neg hz]
    split at h
    · cases h
    · rename_i hbig
      rw [if_neg hbig]
      exact ofRatio_negative h negative

end Binary64
end WsdlCatalog
