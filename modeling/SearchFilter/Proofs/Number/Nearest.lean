/-
# The rounding interval

The reals that round to `m * 2 ^ e` lie between two ends, each halfway to the double next to it:

| end | value |
| --- | --- |
| high | `(4 * m + 2) * 2 ^ (e - 2)` |
| low | `(4 * m - 2) * 2 ^ (e - 2)` |
| low, where `m` is the least mantissa of 53 digits | `(4 * m - 1) * 2 ^ (e - 2)` |

An end belongs to them where the mantissa is even (`ofRatio_of_isNear`). The fewest digits that
identify a double lie in its interval (`isNear_shortest`), so that they are read back as the double.
-/

import Mathlib.Tactic.FieldSimp
import Mathlib.Tactic.Ring
import SearchFilter.Number.Shortest
import SearchFilter.Proofs.Number.Rounding

namespace SearchFilter
namespace Double

/-- Quarters of a unit between a double and the low end of its interval. -/
def lowQuarters (m : Nat) (e : Int) : Nat := if m = 2 ^ 52 ∧ -1074 < e then 1 else 2

/-- A value lies in the rounding interval of `m * 2 ^ e`. -/
structure IsNear (m : Nat) (e : Int) (v : ℚ) : Prop where
  low : (4 * m - lowQuarters m e) * 2 ^ (e - 2) ≤ v
  high : v ≤ (4 * m + 2) * 2 ^ (e - 2)
  inner : m % 2 = 1 → (4 * m - lowQuarters m e) * 2 ^ (e - 2) < v ∧ v < (4 * m + 2) * 2 ^ (e - 2)

variable {num den m : Nat} {e : Int} {negative : Bool}

/-- Rounding takes the only integer within one half, and of two the even one. -/
theorem roundDiv_eq_of (hden : 0 < den) (hlow : (2 * m) * den ≤ 2 * num + den)
    (hhigh : 2 * num ≤ (2 * m + 1) * den)
    (hodd : m % 2 = 1 → (2 * m) * den < 2 * num + den ∧ 2 * num < (2 * m + 1) * den) :
    roundDiv num den = m := by
  have hsum : den * (num / den) + num % den = num := Nat.div_add_mod num den
  have hrest : num % den < den := Nat.mod_lt _ hden
  simp only [roundDiv]
  generalize num / den = q at *
  generalize num % den = r at *
  -- the integer is the floor or the next one
  obtain rfl | rfl : m = q ∨ m = q + 1 := by
    have hle : m < q + 2 := by
      by_contra hlarge
      have hproduct : (2 * (q + 2)) * den ≤ (2 * m) * den := Nat.mul_le_mul_right _ (by omega)
      have hexpand : (2 * (q + 2)) * den = 2 * (den * q) + 4 * den := by ring
      omega
    have hge : q < m + 1 := by
      by_contra hsmall
      have hproduct : (2 * m + 1) * den + den ≤ 2 * (den * q) :=
        calc (2 * m + 1) * den + den = 2 * (den * (m + 1)) := by ring
          _ ≤ 2 * (den * q) := Nat.mul_le_mul_left _ (Nat.mul_le_mul_left _ (by omega))
      omega
    omega
  · have hexpand : (2 * m + 1) * den = 2 * (den * m) + den := by ring
    split
    · rfl
    · have heven : m % 2 = 0 := by
        by_contra hne
        have := (hodd (by omega)).2
        omega
      rw [if_neg (by omega), if_pos heven]
  · have hexpand : (2 * (q + 1)) * den = 2 * (den * q) + 2 * den := by ring
    rw [if_neg (by omega)]
    split
    · rfl
    · have heven : (q + 1) % 2 = 0 := by
        by_contra hne
        have := (hodd (by omega)).1
        omega
      rw [if_neg (by omega)]

/-- A quotient within half a unit of `m * 2 ^ k` has this mantissa in units of `2 ^ k`. -/
theorem roundDiv_scaled_eq_of (hden : den ≠ 0) {k : Int}
    (hlow : (2 * m - 1) * 2 ^ (k - 1) ≤ (num : ℚ) / den)
    (hhigh : (num : ℚ) / den ≤ (2 * m + 1) * 2 ^ (k - 1))
    (hodd : m % 2 = 1 → (2 * m - 1) * 2 ^ (k - 1) < (num : ℚ) / den ∧
      (num : ℚ) / den < (2 * m + 1) * 2 ^ (k - 1)) :
    roundDiv (scaled num den k).1 (scaled num den k).2 = m := by
  have hpos := scaled_pos num (Nat.pos_of_ne_zero hden) k
  have hpos' : (0 : ℚ) < (scaled num den k).2 := by exact_mod_cast hpos
  have hhalf : (0 : ℚ) < 2 ^ (k - 1) := by positivity
  -- in halves of a unit the ends of the interval are odd integers
  have hdouble : 2 * ((scaled num den k).1 : ℚ) =
      (num : ℚ) / den / 2 ^ (k - 1) * (scaled num den k).2 := by
    have hscaled := scaled_eq num den k
    have hpow : (2 : ℚ) ^ k = 2 * 2 ^ (k - 1) := by
      rw [← zpow_one_add₀ (by decide)]
      congr 1
      omega
    rw [hpow, div_eq_iff hpos'.ne'] at hscaled
    rw [hscaled]
    field_simp
  rw [← le_div_iff₀ hhalf] at hlow
  rw [← div_le_iff₀ hhalf] at hhigh
  rw [← lt_div_iff₀ hhalf, ← div_lt_iff₀ hhalf] at hodd
  generalize (num : ℚ) / den / 2 ^ (k - 1) = t at *
  generalize (scaled num den k).1 = n at *
  generalize (scaled num den k).2 = d at *
  refine roundDiv_eq_of hpos ?_ ?_ fun h => ⟨?_, ?_⟩
  · have hproduct := mul_le_mul_of_nonneg_right hlow hpos'.le
    rw [← hdouble] at hproduct
    have hcast : (2 * m * d : ℚ) ≤ 2 * n + d := by linarith
    exact_mod_cast hcast
  · have hproduct := mul_le_mul_of_nonneg_right hhigh hpos'.le
    rw [← hdouble] at hproduct
    exact_mod_cast hproduct
  · have hproduct := mul_lt_mul_of_pos_right (hodd h).1 hpos'
    rw [← hdouble] at hproduct
    have hcast : (2 * m * d : ℚ) < 2 * n + d := by linarith
    exact_mod_cast hcast
  · have hproduct := mul_lt_mul_of_pos_right (hodd h).2 hpos'
    rw [← hdouble] at hproduct
    exact_mod_cast hproduct

/-- Half a unit is two quarters. -/
theorem zpow_half (e : Int) : (2 : ℚ) ^ (e - 1) = 2 * 2 ^ (e - 2) := by
  rw [← zpow_one_add₀ (by decide)]
  congr 1
  omega

/-- The least double of 53 digits in quarters of its unit. -/
theorem zpow_add_52 (e : Int) : (2 : ℚ) ^ (e + 52) = 2 ^ 54 * 2 ^ (e - 2) := by
  have hsum : e + 52 = (54 : ℕ) + (e - 2) := by omega
  rw [hsum, zpow_add₀ (by decide), zpow_natCast]

/-- An interval has only positive values. -/
theorem IsNear.pos {v : ℚ} (h : IsNear m e v) (hm : m ≠ 0) : 0 < v := by
  have hle : lowQuarters m e ≤ 2 := by
    rw [lowQuarters]
    split <;> decide
  have hone : (1 : ℚ) ≤ m := by exact_mod_cast Nat.one_le_iff_ne_zero.2 hm
  have hle' : (lowQuarters m e : ℚ) ≤ 2 := by exact_mod_cast hle
  have hpow : (0 : ℚ) < 2 ^ (e - 2) := by positivity
  exact lt_of_lt_of_le (mul_pos (by linarith) hpow) h.low

/-- From the power of two on, all intervals reach half a unit below their doubles. -/
theorem low_of_isNear {v : ℚ} (h : IsNear m e v)
    (hbelow : ¬ (v < 2 ^ (e + 52) ∧ m = 2 ^ 52 ∧ -1074 < e)) :
    (2 * m - 1) * 2 ^ (e - 1) ≤ v ∧ (m % 2 = 1 → (2 * m - 1) * 2 ^ (e - 1) < v) := by
  obtain ⟨hlow, -, hinner⟩ := h
  have hunit : (0 : ℚ) < 2 ^ (e - 2) := by positivity
  have hhalf : (2 * m - 1) * 2 ^ (e - 1) = (4 * m - (2 : ℕ)) * (2 : ℚ) ^ (e - 2) := by
    rw [zpow_half]
    push_cast
    ring
  by_cases hm : m = 2 ^ 52 ∧ -1074 < e
  · have hge : 2 ^ (e + 52) ≤ v := not_lt.1 fun hlt => hbelow ⟨hlt, hm⟩
    obtain ⟨rfl, -⟩ := hm
    refine ⟨le_trans ?_ hge, fun h => absurd h (by decide)⟩
    rw [hhalf, zpow_add_52]
    gcongr
    norm_num
  · have hquarters : lowQuarters m e = 2 := if_neg hm
    rw [hquarters, ← hhalf] at hlow hinner
    exact ⟨hlow, fun h => (hinner h).1⟩

/-- Powers of two grow with their exponents. -/
theorem lt_of_zpow_lt {a b : ℤ} (h : (2 : ℚ) ^ a < 2 ^ b) : a < b :=
  (zpow_lt_zpow_iff_right₀ (by decide)).1 h

/-- Below a power of two the values in the interval of this double have the exponent before. -/
theorem exponentOf_of_below (hnum : num ≠ 0) (hden : den ≠ 0) (he : -1074 < e)
    (hlow : ((4 * 2 ^ 52 - 1) * 2 ^ (e - 2) : ℚ) ≤ num / den)
    (hbelow : (num : ℚ) / den < 2 ^ (e + 52)) : exponentOf num den = e - 1 := by
  obtain ⟨k, hk, hklow, hkhigh⟩ := exponentOf_spec hnum hden
  have hless : k + 52 < e + 52 := lt_of_zpow_lt (lt_of_le_of_lt hklow hbelow)
  have hmore : e + 51 < k + 53 := by
    refine lt_of_zpow_lt (lt_of_lt_of_le (lt_of_lt_of_le ?_ hlow) hkhigh.le)
    have hsum : e + 51 = (53 : ℕ) + (e - 2) := by omega
    rw [hsum, zpow_add₀ (by decide), zpow_natCast]
    gcongr
    norm_num
  omega

/-- All other values in the interval of a double have its exponent. -/
theorem exponentOf_of_isNear (h : IsRounded (.finite negative m e)) (hnum : num ≠ 0) (hden : den ≠ 0)
    (hnear : IsNear m e (num / den))
    (hbelow : ¬ ((num : ℚ) / den < 2 ^ (e + 52) ∧ m = 2 ^ 52 ∧ -1074 < e)) :
    exponentOf num den = e := by
  obtain ⟨k, hk, hklow, hkhigh⟩ := exponentOf_spec hnum hden
  obtain ⟨hlow, -⟩ := low_of_isNear hnear hbelow
  generalize (num : ℚ) / den = v at *
  cases h with
  | finite hlt hmin hmax hfull =>
    have hle : k ≤ e := by
      have hfew : (m : ℚ) + 1 ≤ 2 ^ 53 := by exact_mod_cast hlt
      have hless : (2 : ℚ) ^ (k + 52) < 2 ^ (e + 1 + 52) := by
        refine lt_of_le_of_lt (hklow.trans hnear.high) ?_
        rw [zpow_add_52, show e + 1 - 2 = e - 1 by omega, zpow_half, ← mul_assoc]
        gcongr
        linarith
      have := lt_of_zpow_lt hless
      omega
    rcases hfull with hfull | rfl
    · rcases eq_or_lt_of_le hmin with rfl | he
      · omega
      · have hmore : (2 : ℚ) ^ (e + 52) ≤ v := by
          rcases eq_or_lt_of_le hfull with rfl | hfull
          · exact not_lt.1 fun h => hbelow ⟨h, rfl, he⟩
          · refine le_trans ?_ hlow
            have hfull' : (2 : ℚ) ^ 52 + 1 ≤ m := by exact_mod_cast hfull
            rw [zpow_add_52, zpow_half, ← mul_assoc]
            gcongr
            linarith
        have := lt_of_zpow_lt (lt_of_le_of_lt hmore hkhigh)
        omega
    · omega

/-- **All values in the rounding interval of a double round to it.** -/
theorem ofRatio_of_isNear (h : IsRounded (.finite negative m e)) (hm : m ≠ 0) (hden : den ≠ 0)
    (hnear : IsNear m e (num / den)) : ofRatio negative num den = .finite negative m e := by
  have hpos := hnear.pos hm
  have hnum : num ≠ 0 := by
    rintro rfl
    simp at hpos
  obtain ⟨hlt, hmax⟩ : m < 2 ^ 53 ∧ e ≤ 971 := by cases h with | finite hlt _ hmax => exact ⟨hlt, hmax⟩
  by_cases hbelow : (num : ℚ) / den < 2 ^ (e + 52) ∧ m = 2 ^ 52 ∧ -1074 < e
  · -- below the power of two the mantissa is rounded up to the next power
    obtain ⟨hbelow, rfl, he⟩ := hbelow
    have hlow : ((4 * 2 ^ 52 - 1) * 2 ^ (e - 2) : ℚ) ≤ num / den := by
      have hquarter : lowQuarters (2 ^ 52) e = 1 := if_pos ⟨rfl, he⟩
      have hlow := hnear.low
      rw [hquarter] at hlow
      exact_mod_cast hlow
    have hexponent := exponentOf_of_below hnum hden he hlow hbelow
    have hround : roundDiv (scaled num den (e - 1)).1 (scaled num den (e - 1)).2 = 2 ^ 53 := by
      have hsum : e - 1 - 1 = e - 2 := by omega
      rw [zpow_add_52] at hbelow
      refine roundDiv_scaled_eq_of hden ?_ ?_ fun h => absurd h (by decide)
      · rw [hsum]
        push_cast
        linarith
      · rw [hsum]
        push_cast
        linarith
    simp only [ofRatio_eq negative hnum, hexponent, hround, if_true, Int.sub_add_cancel,
      if_neg (not_lt.2 hmax)]
  · -- the quotient has the exponent of the double, and is rounded to its mantissa
    obtain ⟨hlow, hlow'⟩ := low_of_isNear hnear hbelow
    have hexponent := exponentOf_of_isNear h hnum hden hnear hbelow
    have hodd : (2 * m + 1) * 2 ^ (e - 1) = (4 * m + 2) * (2 : ℚ) ^ (e - 2) := by
      rw [zpow_half]
      ring
    have hround : roundDiv (scaled num den e).1 (scaled num den e).2 = m := by
      refine roundDiv_scaled_eq_of hden hlow ?_ fun h => ⟨hlow' h, ?_⟩
      · rw [hodd]
        exact hnear.high
      · rw [hodd]
        exact (hnear.inner h).2
    simp only [ofRatio_eq negative hnum, hexponent, hround, if_neg (Nat.ne_of_lt hlt),
      if_neg (not_lt.2 hmax)]

end Double

namespace Decimal

open Double (IsNear lowQuarters)

variable {m : Nat} {e : Int}

/-- The value of a positive decimal. -/
def Digits.value (d : Digits) : ℚ := d.digits * 10 ^ d.scale

/-! ### Intervals in natural numbers -/

/-- A power is the one with its exponent above zero, less the one below. -/
theorem pow_toNat {b : ℚ} (hb : b ≠ 0) (k : Int) : b ^ k.toNat = b ^ k * b ^ (-k).toNat := by
  obtain ⟨n, rfl | rfl⟩ := k.eq_nat_or_neg
  · simp
  · simp [hb]

section
variable (n d : Nat) (k scale : Int)

/-- Both sides of a comparison are cleared of negative exponents by the same factor. -/
theorem cleared_eq :
    (n * 2 ^ k.toNat * 10 ^ (-scale).toNat : ℚ) = n * 2 ^ k * (2 ^ (-k).toNat * 10 ^ (-scale).toNat) ∧
      (d * (2 ^ (-k).toNat * 10 ^ scale.toNat) : ℚ) =
        d * 10 ^ scale * (2 ^ (-k).toNat * 10 ^ (-scale).toNat) := by
  rw [pow_toNat (by decide : (2 : ℚ) ≠ 0) k, pow_toNat (by decide : (10 : ℚ) ≠ 0) scale]
  constructor <;> ring

/-- A decimal is at least a binary number where it is so without negative exponents. -/
theorem scaled_le_iff : n * 2 ^ k.toNat * 10 ^ (-scale).toNat ≤ d * (2 ^ (-k).toNat * 10 ^ scale.toNat) ↔
    (n : ℚ) * 2 ^ k ≤ d * 10 ^ scale := by
  obtain ⟨hleft, hright⟩ := cleared_eq n d k scale
  rw [← Nat.cast_le (α := ℚ)]
  push_cast
  rw [hleft, hright, mul_le_mul_iff_left₀ (by positivity)]

/-- A decimal is at most a binary number where it is so without negative exponents. -/
theorem le_scaled_iff : d * (2 ^ (-k).toNat * 10 ^ scale.toNat) ≤ n * 2 ^ k.toNat * 10 ^ (-scale).toNat ↔
    (d : ℚ) * 10 ^ scale ≤ n * 2 ^ k := by
  obtain ⟨hleft, hright⟩ := cleared_eq n d k scale
  rw [← Nat.cast_le (α := ℚ)]
  push_cast
  rw [hleft, hright, mul_le_mul_iff_left₀ (by positivity)]

end

/-- **What lies in the interval in units of a power of ten lies in it.** -/
theorem isNear_of_holds (hm : m ≠ 0) {scale : Int} {d : Nat}
    (h : ((Interval.of m e).per scale).holds d = true) : IsNear m e (d * 10 ^ scale) := by
  have hexponent : (2 - e).toNat = (-(e - 2)).toNat := by congr 1; omega
  have hquarters : ((4 * m - lowQuarters m e : ℕ) : ℚ) = 4 * m - lowQuarters m e := by
    have hle : lowQuarters m e ≤ 2 := by
      rw [lowQuarters]
      split <;> decide
    rw [Nat.cast_sub (by omega)]
    push_cast
    rfl
  have hlow := scaled_le_iff (4 * m - lowQuarters m e) d (e - 2) scale
  have hlow' := le_scaled_iff (4 * m - lowQuarters m e) d (e - 2) scale
  have hhigh := le_scaled_iff (4 * m + 2) d (e - 2) scale
  have hhigh' := scaled_le_iff (4 * m + 2) d (e - 2) scale
  have hfold : (if m = 2 ^ 52 ∧ -1074 < e then 1 else 2) = lowQuarters m e := rfl
  rw [hquarters] at hlow hlow'
  push_cast at hhigh hhigh'
  simp only [Interval.holds, Interval.per, Interval.of, Nat.pow_eq, hexponent, hfold,
    decide_eq_true_eq] at h
  split at h
  · rename_i heven
    rw [Bool.and_eq_true, decide_eq_true_eq, decide_eq_true_eq, hlow, hhigh] at h
    exact ⟨h.1, h.2, fun hodd => absurd (heven.symm.trans hodd) (by decide)⟩
  · rw [Bool.and_eq_true, decide_eq_true_eq, decide_eq_true_eq, ← not_le, ← not_le, hlow', hhigh',
      not_le, not_le] at h
    exact ⟨h.1.le, h.2.le, fun _ => h⟩

/-! ### The fewest digits -/

/-- A neighbour is only taken if it lies in the interval. -/
theorem holds_of_neighbour? {tie : Tie} {x : Interval} {d : Nat} (h : x.neighbour? tie = some d) :
    x.holds d = true := by
  simp only [Interval.neighbour?] at h
  split at h
  · cases h
  · rename_i hd _
    rwa [← Option.some.inj h]
  · rename_i _ hd
    rwa [← Option.some.inj h]
  · rename_i hd hd'
    split at h
    · rwa [← Option.some.inj h]
    · split at h
      · rwa [← Option.some.inj h]
      · split at h
        · rwa [← Option.some.inj h]
        · rw [← Option.some.inj h]
          split
          · exact hd
          · exact hd'

/-- Moving zeros into the scale keeps the value. -/
theorem value_strip (d : Digits) : d.strip.value = d.value := by
  induction d using Digits.strip.induct with
  | case1 d h ih =>
    rw [Digits.strip, if_pos h, ih, Digits.value, Digits.value, zpow_add_one₀ (by decide)]
    have hten : (d.digits : ℚ) = (d.digits / 10 : ℕ) * 10 := by
      exact_mod_cast (Nat.div_mul_cancel (Nat.dvd_of_mod_eq_zero h.1)).symm
    rw [hten]
    ring
  | case2 d h => rw [Digits.strip, if_neg h]

/-- A double lies in its own interval. -/
theorem isNear_self (m : Nat) (e : Int) : IsNear m e (m * 2 ^ e) := by
  have hunit : (0 : ℚ) < 2 ^ (e - 2) := by positivity
  have hfour : (m : ℚ) * 2 ^ e = 4 * m * 2 ^ (e - 2) := by
    have hsum : e = (2 : ℕ) + (e - 2) := by omega
    rw [hsum, zpow_add₀ (by decide), zpow_natCast, ← hsum]
    ring
  have hpos : (0 : ℚ) < lowQuarters m e := by
    rw [lowQuarters]
    split <;> norm_num
  have hlow : (4 * m - lowQuarters m e) * (2 : ℚ) ^ (e - 2) < m * 2 ^ e := by
    rw [hfour]
    gcongr
    linarith
  have hhigh : (m : ℚ) * 2 ^ e < (4 * m + 2) * 2 ^ (e - 2) := by
    rw [hfour]
    gcongr
    linarith
  exact ⟨hlow.le, hhigh.le, fun _ => ⟨hlow, hhigh⟩⟩

/-- All digits of a double, with a power of five for each binary place. -/
theorem value_exact (m : Nat) (e : Int) :
    Digits.value ⟨(Double.ratio m e).1 * 5 ^ (-e).toNat, min e 0⟩ = m * 2 ^ e := by
  have hplaces : min e 0 = -((-e).toNat : Int) := by omega
  simp only [Digits.value, Double.ratio, Nat.pow_eq, hplaces]
  push_cast
  exact Double.decimal_value m e

/-- **The fewest digits that identify a double lie in its interval.** -/
theorem isNear_shortest (tie : Tie) (hm : m ≠ 0) : IsNear m e (shortest tie m e).value := by
  simp only [shortest]
  split
  · rename_i d hd
    obtain ⟨n, -, hn⟩ := List.exists_of_findSome?_eq_some hd
    obtain ⟨digits, hdigits, rfl⟩ := Option.map_eq_some_iff.1 hn
    rw [value_strip]
    exact isNear_of_holds hm (holds_of_neighbour? hdigits)
  · rw [Nat.pow_eq, value_exact]
    exact isNear_self m e

end Decimal
end SearchFilter
