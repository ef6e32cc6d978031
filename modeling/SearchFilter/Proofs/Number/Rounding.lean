/-
# Rounding

Rounding gives each value one form, with a mantissa of 53 binary digits or with the least
exponent. Its exponent `e` is told by the quotient:

| quotient | exponent | mantissa |
| --- | --- | --- |
| from `2 ^ (e + 52)` up to `2 ^ (e + 53)` | `e`, where it is at least `-1074` | 53 digits |
| below `2 ^ (-1021)` | `-1074` | at most 53 digits |
| below `2 ^ (-1075)` | `-1074` | zero |
| from `2 ^ 1024 - 2 ^ 970` | none: infinity | |

So all that is rounded has this form (`isRounded_ofRatio`), and a quotient that has it is not
changed (`ofRatio_of_isRounded`). Infinities start halfway between the greatest double and
`2 ^ 1024`, whose mantissa is the even one (`isFinite_ofRatio_iff`).
-/

import Mathlib.Algebra.Order.Field.Power
import Mathlib.Data.Rat.Cast.Order
import Mathlib.Tactic.Linarith
import Mathlib.Tactic.NormNum
import Mathlib.Tactic.Positivity
import SearchFilter.Number.Double

namespace SearchFilter
namespace Double

/-- A form that rounding gives to finite doubles. -/
inductive IsRounded : Double → Prop
  | finite {negative : Bool} {m : Nat} {e : Int} : m < 2 ^ 53 → -1074 ≤ e → e ≤ 971 →
    2 ^ 52 ≤ m ∨ e = -1074 → IsRounded (.finite negative m e)

variable {num den : Nat}

/-! ### Quotients and their binary digits -/

/-- No scaled quotient is one by zero. -/
theorem scaled_pos (num : Nat) (hden : 0 < den) (e : Int) : 0 < (scaled num den e).2 :=
  Nat.mul_pos hden (Nat.pow_pos (by decide))

/-- Scaling divides a quotient by a power of two. -/
theorem scaled_eq (num den : Nat) (e : Int) :
    ((scaled num den e).1 : ℚ) / (scaled num den e).2 = num / den / 2 ^ e := by
  rw [scaled, Nat.pow_eq, Nat.pow_eq]
  push_cast
  obtain ⟨n, rfl | rfl⟩ := e.eq_nat_or_neg
  · simp [div_div]
  · simp [mul_div_right_comm]

/-- A scaled quotient is below `2 ^ k` where the quotient is below `2 ^ (e + k)`. -/
theorem scaled_div_lt_iff (num : Nat) (hden : 0 < den) (e : Int) (k : Nat) :
    (scaled num den e).1 / (scaled num den e).2 < 2 ^ k ↔ (num : ℚ) / den < 2 ^ (e + k) := by
  have hpos := scaled_pos num hden e
  have hpos' : (0 : ℚ) < (scaled num den e).2 := by exact_mod_cast hpos
  have hpow : (0 : ℚ) < 2 ^ e := by positivity
  calc (scaled num den e).1 / (scaled num den e).2 < 2 ^ k
      ↔ (scaled num den e).1 < 2 ^ k * (scaled num den e).2 := Nat.div_lt_iff_lt_mul hpos
    _ ↔ ((scaled num den e).1 : ℚ) < 2 ^ k * (scaled num den e).2 := by exact_mod_cast Iff.rfl
    _ ↔ ((scaled num den e).1 : ℚ) / (scaled num den e).2 < 2 ^ k := (div_lt_iff₀ hpos').symm
    _ ↔ (num : ℚ) / den < 2 ^ k * 2 ^ e := by rw [scaled_eq, div_lt_iff₀ hpow]
    _ ↔ (num : ℚ) / den < 2 ^ (e + k) := by
      rw [zpow_add₀ (by decide), zpow_natCast, mul_comm]

/-- A quotient lies between the powers of two that the lengths of its parts tell. -/
theorem ratio_bounds (hnum : num ≠ 0) (hden : den ≠ 0) :
    (2 : ℚ) ^ ((num.log2 : ℤ) - den.log2 - 1) < num / den ∧
      (num : ℚ) / den < 2 ^ ((num.log2 : ℤ) - den.log2 + 1) := by
  have hpos : (0 : ℚ) < den := by exact_mod_cast Nat.pos_of_ne_zero hden
  have hnum' : (2 : ℚ) ^ (num.log2 : ℤ) ≤ num ∧ (num : ℚ) < 2 ^ (num.log2 + 1 : ℤ) := by
    exact_mod_cast And.intro (Nat.log2_self_le hnum) Nat.lt_log2_self
  have hden' : (2 : ℚ) ^ (den.log2 : ℤ) ≤ den ∧ (den : ℚ) < 2 ^ (den.log2 + 1 : ℤ) := by
    exact_mod_cast And.intro (Nat.log2_self_le hden) Nat.lt_log2_self
  constructor
  · rw [lt_div_iff₀ hpos]
    calc (2 : ℚ) ^ ((num.log2 : ℤ) - den.log2 - 1) * den
        < 2 ^ ((num.log2 : ℤ) - den.log2 - 1) * 2 ^ (den.log2 + 1 : ℤ) := by gcongr; exact hden'.2
      _ = 2 ^ (num.log2 : ℤ) := by rw [← zpow_add₀ (by decide)]; congr 1; omega
      _ ≤ num := hnum'.1
  · rw [div_lt_iff₀ hpos]
    calc (num : ℚ) < 2 ^ (num.log2 + 1 : ℤ) := hnum'.2
      _ = 2 ^ ((num.log2 : ℤ) - den.log2 + 1) * 2 ^ (den.log2 : ℤ) := by
        rw [← zpow_add₀ (by decide)]; congr 1; omega
      _ ≤ 2 ^ ((num.log2 : ℤ) - den.log2 + 1) * den := by gcongr; exact hden'.1

/-- The exponent is told by the lengths of both parts; it is one more where that leaves a digit too
many, and `-1074` at least. -/
theorem exponentOf_eq (num den : Nat) : exponentOf num den =
    let e : Int := (num.log2 : Int) - den.log2 - 53
    max (-1074) (if (scaled num den e).1 / (scaled num den e).2 < 2 ^ 53 then e else e + 1) := rfl

/-- **The exponent leaves 53 binary digits of a quotient before the point,** unless that would be
below the least one. -/
theorem exponentOf_spec (hnum : num ≠ 0) (hden : den ≠ 0) :
    ∃ e, exponentOf num den = max (-1074) e ∧
      (2 : ℚ) ^ (e + 52) ≤ num / den ∧ (num : ℚ) / den < 2 ^ (e + 53) := by
  obtain ⟨hlow, hhigh⟩ := ratio_bounds hnum hden
  rw [exponentOf_eq]
  generalize he : (num.log2 : ℤ) - den.log2 - 53 = e
  have hiff := scaled_div_lt_iff num (Nat.pos_of_ne_zero hden) e 53
  have hfirst : (num.log2 : ℤ) - den.log2 - 1 = e + 52 := by omega
  have hlast : (num.log2 : ℤ) - den.log2 + 1 = e + 1 + 53 := by omega
  have hmiddle : e + 1 + 52 = e + (53 : ℕ) := by omega
  rw [hfirst] at hlow
  rw [hlast] at hhigh
  refine ⟨_, rfl, ?_⟩
  split
  · rename_i hlt
    exact ⟨le_of_lt hlow, hiff.1 hlt⟩
  · rename_i hge
    rw [hmiddle]
    exact ⟨not_lt.1 (mt hiff.2 hge), hhigh⟩

/-! ### Rounded forms -/

/-- A mantissa that is rounded up to a power of two takes the next exponent. -/
theorem ofRatio_eq (negative : Bool) (hnum : num ≠ 0) : ofRatio negative num den =
    let e := exponentOf num den
    let m := roundDiv (scaled num den e).1 (scaled num den e).2
    if m = 2 ^ 53 then
      if 971 < e + 1 then .infinite negative else .finite negative (2 ^ 52) (e + 1)
    else if 971 < e then .infinite negative else .finite negative m e := by
  simp only [ofRatio, if_neg hnum, Nat.pow_eq]
  by_cases hm : roundDiv (scaled num den (exponentOf num den)).1
      (scaled num den (exponentOf num den)).2 = 2 ^ 53
  · simp only [if_pos hm]
  · simp only [if_neg hm]

section
variable {negative : Bool} {m : Nat} {e : Int}

/-- A quotient that is not zero has a numerator. -/
theorem ne_zero_of_value (hm : m ≠ 0) (hvalue : (num : ℚ) / den = m * 2 ^ e) : num ≠ 0 := by
  rintro rfl
  have hproduct : (m : ℚ) * 2 ^ e ≠ 0 := mul_ne_zero (by exact_mod_cast hm) (by positivity)
  exact hproduct (by rw [← hvalue, Nat.cast_zero, zero_div])

/-- The exponent of a quotient that has a rounded form is the one of this form. -/
theorem exponentOf_of_isRounded (h : IsRounded (.finite negative m e)) (hm : m ≠ 0) (hden : den ≠ 0)
    (hvalue : (num : ℚ) / den = m * 2 ^ e) : exponentOf num den = e := by
  obtain ⟨k, hk, hlow, hhigh⟩ := exponentOf_spec (ne_zero_of_value hm hvalue) hden
  rw [hvalue] at hlow hhigh
  cases h with
  | finite hlt hmin _ hfull =>
    have hle : k + 52 < 53 + e := by
      refine (zpow_lt_zpow_iff_right₀ (a := (2 : ℚ)) (by decide)).1 (lt_of_le_of_lt hlow ?_)
      rw [zpow_add₀ (by decide)]
      gcongr
      exact_mod_cast hlt
    rcases hfull with hfull | rfl
    · have hge : 52 + e < k + 53 := by
        refine (zpow_lt_zpow_iff_right₀ (a := (2 : ℚ)) (by decide)).1 (lt_of_le_of_lt ?_ hhigh)
        rw [zpow_add₀ (by decide)]
        gcongr
        exact_mod_cast hfull
      omega
    · omega

/-- **A quotient that has a rounded form is not changed by rounding.** -/
theorem ofRatio_of_isRounded (h : IsRounded (.finite negative m e)) (hm : m ≠ 0) (hden : den ≠ 0)
    (hvalue : (num : ℚ) / den = m * 2 ^ e) : ofRatio negative num den = .finite negative m e := by
  have hexponent := exponentOf_of_isRounded h hm hden hvalue
  have hpos := scaled_pos num (Nat.pos_of_ne_zero hden) e
  have hexact : (scaled num den e).1 = m * (scaled num den e).2 := by
    have hquotient := scaled_eq num den e
    rw [hvalue, mul_div_cancel_right₀ _ (by positivity), div_eq_iff (by positivity)] at hquotient
    exact_mod_cast hquotient
  have hround : roundDiv (scaled num den e).1 (scaled num den e).2 = m := by
    rw [hexact, roundDiv_of_dvd hpos (Nat.mul_mod_left ..), Nat.mul_div_cancel _ hpos]
  cases h with
  | finite hlt _ hmax _ =>
    simp only [ofRatio_eq negative (ne_zero_of_value hm hvalue), hexponent, hround,
      if_neg (Nat.ne_of_lt hlt), if_neg (not_lt.2 hmax)]

end

/-- What is less than half the least double is rounded to zero. -/
theorem ofRatio_of_lt (hden : den ≠ 0) (h : (num : ℚ) / den < 2 ^ (-1075 : ℤ)) (negative : Bool) :
    ofRatio negative num den = .finite negative 0 (-1074) := by
  rcases eq_or_ne num 0 with rfl | hnum
  · rfl
  obtain ⟨k, hk, hlow, -⟩ := exponentOf_spec hnum hden
  have hsmall : k + 52 < -1075 :=
    (zpow_lt_zpow_iff_right₀ (a := (2 : ℚ)) (by decide)).1 (lt_of_le_of_lt hlow h)
  have hexponent : exponentOf num den = -1074 := by omega
  have hpos := scaled_pos num (Nat.pos_of_ne_zero hden) (-1074)
  have hhalf : 2 * (scaled num den (-1074)).1 < (scaled num den (-1074)).2 := by
    have hpos' : (0 : ℚ) < (scaled num den (-1074)).2 := by exact_mod_cast hpos
    have hquotient : ((scaled num den (-1074)).1 : ℚ) / (scaled num den (-1074)).2 < 2⁻¹ := by
      rw [scaled_eq, div_lt_iff₀ (by positivity), ← zpow_neg_one, ← zpow_add₀ (by decide)]
      exact h
    rw [div_lt_iff₀ hpos', inv_mul_eq_div, lt_div_iff₀' (by decide)] at hquotient
    exact_mod_cast hquotient
  have hround : roundDiv (scaled num den (-1074)).1 (scaled num den (-1074)).2 = 0 := by
    have hlt : (scaled num den (-1074)).1 < (scaled num den (-1074)).2 := by omega
    rw [roundDiv, Nat.mod_eq_of_lt hlt, Nat.div_eq_of_lt hlt, if_pos hhalf]
  simp only [ofRatio_eq negative hnum, hexponent, hround]
  rfl

/-- What is beyond the greatest double is rounded to an infinity. -/
theorem ofRatio_of_le (hden : den ≠ 0) (h : 2 ^ (1024 : ℤ) ≤ (num : ℚ) / den) (negative : Bool) :
    ofRatio negative num den = .infinite negative := by
  have hnum : num ≠ 0 := by
    rintro rfl
    rw [Nat.cast_zero, zero_div] at h
    exact absurd h (not_le.2 (by positivity))
  obtain ⟨k, hk, -, hhigh⟩ := exponentOf_spec hnum hden
  have hlarge : 1024 < k + 53 :=
    (zpow_lt_zpow_iff_right₀ (a := (2 : ℚ)) (by decide)).1 (lt_of_le_of_lt h hhigh)
  have hmax : 971 < exponentOf num den := by omega
  have hmax' : 971 < exponentOf num den + 1 := by omega
  simp only [ofRatio_eq negative hnum, if_pos hmax, if_pos hmax', ite_self]

/-- Rounding takes one of the two integers beside a quotient. -/
theorem roundDiv_bounds (num den : Nat) :
    num / den ≤ roundDiv num den ∧ roundDiv num den ≤ num / den + 1 := by
  simp only [roundDiv]
  split
  · omega
  · split
    · omega
    · split <;> omega

/-- **Whatever is finite after rounding is rounded.** -/
theorem isRounded_ofRatio {negative : Bool} (hden : den ≠ 0)
    (h : (ofRatio negative num den).isFinite = true) : IsRounded (ofRatio negative num den) := by
  rcases eq_or_ne num 0 with rfl | hnum
  · exact .finite (by decide) (by decide) (by decide) (.inr rfl)
  obtain ⟨k, hk, hlow, hhigh⟩ := exponentOf_spec hnum hden
  generalize he : exponentOf num den = e at hk
  have hpos := Nat.pos_of_ne_zero hden
  obtain ⟨hfloor, hceil⟩ := roundDiv_bounds (scaled num den e).1 (scaled num den e).2
  -- below the least exponent the quotient has fewer digits, and never more
  have hlt : (scaled num den e).1 / (scaled num den e).2 < 2 ^ 53 := by
    refine (scaled_div_lt_iff num hpos e 53).2 (lt_of_lt_of_le hhigh ?_)
    exact zpow_le_zpow_right₀ (by decide) (by push_cast; omega)
  have hge : 2 ^ 52 ≤ (scaled num den e).1 / (scaled num den e).2 ∨ e = -1074 := by
    rcases le_or_gt k (-1074) with hsmall | hlarge
    · exact .inr (by omega)
    · refine .inl (not_lt.1 fun hsmall => absurd ((scaled_div_lt_iff num hpos e 52).1 hsmall) ?_)
      obtain rfl : e = k := by omega
      exact not_lt.2 hlow
  simp only [ofRatio_eq negative hnum, he] at h ⊢
  generalize roundDiv (scaled num den e).1 (scaled num den e).2 = m at hfloor hceil h ⊢
  generalize (scaled num den e).1 / (scaled num den e).2 = q at hlt hge hfloor hceil
  revert h
  split
  · split
    · exact nofun
    · exact fun _ => .finite (by decide) (by omega) (by omega) (.inl (Nat.le_refl _))
  · split
    · exact nofun
    · refine fun _ => .finite (by omega) (by omega) (by omega) ?_
      exact hge.imp_left fun hq => Nat.le_trans hq hfloor

/-! ### Overflow -/

/-- An odd number is rounded up to from halfway on. -/
theorem roundDiv_eq_succ_iff {q : Nat} (hden : 0 < den) (hq : num / den ≤ q) (hodd : q % 2 = 1) :
    roundDiv num den = q + 1 ↔ (2 * q + 1) * den ≤ 2 * num := by
  have hsum : den * (num / den) + num % den = num := Nat.div_add_mod num den
  have hrest : num % den < den := Nat.mod_lt _ hden
  have hhalf : (2 * q + 1) * den = 2 * (den * q) + den := by
    rw [Nat.add_mul, Nat.one_mul, Nat.mul_assoc, Nat.mul_comm q den]
  rcases Nat.lt_or_eq_of_le hq with hlt | rfl
  · -- the floor is too small on both sides
    obtain ⟨-, hceil⟩ := roundDiv_bounds num den
    have hstep : den * (num / den) + den ≤ den * q := by
      rw [← Nat.mul_succ]
      exact Nat.mul_le_mul_left _ hlt
    exact iff_of_false (by omega) (by omega)
  · simp only [roundDiv]
    generalize num / den = q at *
    generalize num % den = r at *
    split
    · exact iff_of_false (by omega) (by omega)
    · refine iff_of_true ?_ (by omega)
      split
      · rfl
      · rw [if_neg (by omega)]

/-- The point where infinities start lies between the last two powers of two. -/
theorem overflow_bounds :
    (2 : ℚ) ^ 1023 < 2 ^ 1024 - 2 ^ 970 ∧ (2 : ℚ) ^ 1024 - 2 ^ 970 ≤ 2 ^ 1024 := by
  have hroom : 2 ^ 1023 + 2 ^ 970 < 2 ^ 1024 := by decide +kernel
  rw [lt_sub_iff_add_lt]
  exact ⟨by exact_mod_cast hroom, sub_le_self _ (by positivity)⟩

/-- With the last exponent the mantissa is rounded up to the next power of two from there on. -/
theorem roundDiv_scaled_iff (hden : 0 < den) (h : (num : ℚ) / den < 2 ^ (1024 : ℤ)) :
    roundDiv (scaled num den 971).1 (scaled num den 971).2 = 2 ^ 53 ↔
      (2 : ℚ) ^ 1024 - 2 ^ 970 ≤ num / den := by
  have hpos := scaled_pos num hden 971
  have hpos' : (0 : ℚ) < (scaled num den 971).2 := by exact_mod_cast hpos
  have hlt : (scaled num den 971).1 / (scaled num den 971).2 < 9007199254740991 + 1 :=
    (scaled_div_lt_iff num hden 971 53).2 h
  -- the bound is half of `2 ^ 54 - 1` units
  have hbound : (2 : ℚ) ^ 1024 - 2 ^ 970 = 18014398509481983 / 2 * 2 ^ (971 : ℤ) := by
    have hlast : (2 : ℚ) ^ (971 : ℤ) = 2 * 2 ^ 970 := 
      (zpow_natCast 2 971).trans (pow_succ' 2 970)
    have hfirst : (2 : ℚ) ^ 1024 = 2 ^ 54 * 2 ^ 970 := pow_add 2 54 970
    rw [hlast, hfirst]
    generalize (2 : ℚ) ^ 970 = unit
    linarith
  calc roundDiv (scaled num den 971).1 (scaled num den 971).2 = 2 ^ 53
      ↔ 18014398509481983 * (scaled num den 971).2 ≤ 2 * (scaled num den 971).1 :=
        roundDiv_eq_succ_iff hpos (Nat.le_of_lt_succ hlt) (by decide)
    _ ↔ (18014398509481983 : ℚ) * (scaled num den 971).2 ≤ 2 * (scaled num den 971).1 := by
        exact_mod_cast Iff.rfl
    _ ↔ (18014398509481983 : ℚ) / 2 ≤ (scaled num den 971).1 / (scaled num den 971).2 := by
        rw [le_div_iff₀ hpos', div_mul_eq_mul_div, div_le_iff₀' (by decide)]
    _ ↔ (2 : ℚ) ^ 1024 - 2 ^ 970 ≤ num / den := by
        rw [scaled_eq, le_div_iff₀ (by positivity), hbound]

/-- **Infinities start halfway between the greatest double and `2 ^ 1024`.** -/
theorem isFinite_ofRatio_iff (hden : den ≠ 0) (negative : Bool) :
    (ofRatio negative num den).isFinite = true ↔ (num : ℚ) / den < 2 ^ 1024 - 2 ^ 970 := by
  obtain ⟨hbelow, habove⟩ := overflow_bounds
  rcases eq_or_ne num 0 with rfl | hnum
  · refine iff_of_true rfl ?_
    rw [Nat.cast_zero, zero_div]
    exact lt_trans (by positivity) hbelow
  have hpos := Nat.pos_of_ne_zero hden
  obtain ⟨k, hk, hlow, hhigh⟩ := exponentOf_spec hnum hden
  rcases lt_trichotomy k 971 with hk' | rfl | hk'
  · -- below the last exponent there is room for a larger mantissa
    have hsmall : (num : ℚ) / den < 2 ^ (1023 : ℤ) :=
      lt_of_lt_of_le hhigh (zpow_le_zpow_right₀ (by decide) (by omega))
    refine iff_of_true ?_ (lt_trans hsmall hbelow)
    simp only [ofRatio_eq negative hnum, if_neg (show ¬ 971 < exponentOf num den + 1 by omega),
      if_neg (show ¬ 971 < exponentOf num den by omega)]
    split <;> rfl
  · have hexponent : exponentOf num den = 971 := by omega
    have hround := roundDiv_scaled_iff hpos hhigh
    simp only [ofRatio_eq negative hnum, hexponent]
    split
    · rename_i hm
      exact iff_of_false nofun (not_lt.2 (hround.1 hm))
    · rename_i hm
      exact iff_of_true rfl (not_le.1 (mt hround.2 hm))
  · have hlarge : (2 : ℚ) ^ (1024 : ℤ) ≤ num / den :=
      le_trans (zpow_le_zpow_right₀ (by decide) (by omega)) hlow
    rw [ofRatio_of_le hden hlarge]
    exact iff_of_false nofun (not_lt.2 (le_trans habove hlarge))

/-- A power of two below the point is one of five with as many decimal places. -/
theorem decimal_value (m : Nat) (e : Int) :
    (m * 2 ^ e.toNat * 5 ^ (-e).toNat * 10 ^ (-((-e).toNat : Int)) : ℚ) = m * 2 ^ e := by
  obtain ⟨n, rfl | rfl⟩ := e.eq_nat_or_neg
  · simp
  · have hcancel : (5 : ℚ) ^ n * (10 ^ n)⁻¹ = (2 ^ n)⁻¹ := by
      rw [← inv_pow, ← inv_pow, ← mul_pow]
      norm_num
    simp [mul_assoc, hcancel]

end Double
end SearchFilter
