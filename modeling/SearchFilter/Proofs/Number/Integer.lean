/-
# Integers as doubles

A double has 53 binary digits, so that an integer is one exactly where it has no more of them in
front of a power of two:

| integer | nearest double |
| --- | --- |
| up to `2 ^ 53` | the integer |
| `2 ^ 53 + 1` | `2 ^ 53` |
| `m * 2 ^ e` with `m` below `2 ^ 53` | the integer, unless it is too large for any double |

Rounding changes all others (`value_ofRatio_iff`), and what it makes of them is an integer too
(`exists_value_ofRatio`).
-/

import Mathlib.Tactic.FieldSimp
import Mathlib.Tactic.Ring
import SearchFilter.Proofs.Number.Rounding

namespace SearchFilter
namespace Double

/-- The value of a finite double. -/
def value : Double → ℚ
  | .finite negative m e => if negative then -(m * 2 ^ e) else m * 2 ^ e
  | _ => 0

/-- The quotient of a double is its value without the sign. -/
theorem ratio_eq (m : Nat) (e : Int) : ((ratio m e).1 : ℚ) / (ratio m e).2 = m * 2 ^ e := by
  rw [ratio, Nat.pow_eq, Nat.pow_eq]
  push_cast
  obtain ⟨n, rfl | rfl⟩ := e.eq_nat_or_neg
  · simp
  · simp [div_eq_mul_inv]

/-- No double is a quotient by zero. -/
theorem ratio_ne_zero (m : Nat) (e : Int) : (ratio m e).2 ≠ 0 := (Nat.pow_pos (by decide)).ne'

/-- **A double is read as an integer exactly where its value is one.** -/
theorem toInt?_eq_some_iff {x : Double} (hx : x.isFinite = true) {i : Int} :
    x.toInt? = some i ↔ x.value = i := by
  cases x with
  | infinite negative => cases hx
  | nan => cases hx
  | finite negative m e =>
    have hratio := ratio_eq m e
    have hne : ((ratio m e).2 : ℚ) ≠ 0 := by exact_mod_cast ratio_ne_zero m e
    rw [value, ← hratio]
    simp only [toInt?]
    generalize (ratio m e).1 = n at *
    generalize (ratio m e).2 = d at *
    by_cases h : n % d = 0
    · obtain ⟨q, rfl⟩ := Nat.dvd_of_mod_eq_zero h
      have hd : 0 < d := Nat.pos_of_ne_zero (by exact_mod_cast hne)
      rw [if_pos h, Nat.mul_div_cancel_left _ hd, Nat.cast_mul, mul_div_cancel_left₀ _ hne]
      cases negative <;> simp <;> norm_cast
    · rw [if_neg h]
      refine iff_of_false (Option.some_ne_none i).symm fun hi => h (Nat.mod_eq_zero_of_dvd ?_)
      have habs : (n : ℚ) / d = (i.natAbs : ℚ) := by
        have hnonneg : (0 : ℚ) ≤ n / d := by positivity
        have hcast : (i.natAbs : ℚ) = |(i : ℚ)| := by simp [Nat.cast_natAbs]
        rw [hcast, ← hi]
        cases negative <;> simp [abs_of_nonneg hnonneg]
      rw [div_eq_iff hne] at habs
      exact ⟨i.natAbs, by rw [mul_comm]; exact_mod_cast habs⟩

/-- So it is written without point and exponent where this integer has at most 63 binary digits. -/
theorem toInt63?_eq_some_iff {x : Double} (hx : x.isFinite = true) {i : Int} :
    x.toInt63? = some i ↔ x.value = i ∧ i.natAbs < 2 ^ 63 := by
  rw [toInt63?, Option.filter_eq_some_iff, toInt?_eq_some_iff hx, decide_eq_true_eq, Nat.pow_eq]

/-! ### Integers that are doubles -/

/-- Whether a natural number has 53 binary digits in front of a power of two. -/
def Fits (n : Nat) : Prop := ∃ m e : Nat, m < 2 ^ 53 ∧ n = m * 2 ^ e

/-- Numbers below `2 ^ 53` have no more than 53 binary digits. -/
theorem fits_of_lt {n : Nat} (h : n < 2 ^ 53) : Fits n := ⟨n, 0, h, by simp⟩

section
variable {negative b : Bool} {n m : Nat} {e : Int}

/-- Rounding keeps the sign. -/
theorem ofRatio_sign (h : ofRatio negative n 1 = .finite b m e) : b = negative := by
  rcases eq_or_ne n 0 with rfl | hn
  · exact (Double.finite.inj h).1.symm
  · simp only [ofRatio_eq negative hn] at h
    split at h
    all_goals
      split at h
      · cases h
      · exact (Double.finite.inj h).1.symm

/-- Rounding does not mind the sign. -/
theorem ofRatio_eq_finite_iff (negative b : Bool) :
    ofRatio negative n 1 = .finite negative m e ↔ ofRatio b n 1 = .finite b m e := by
  rcases eq_or_ne n 0 with rfl | hn
  · simp [ofRatio]
  · simp only [ofRatio_eq _ hn]
    split <;> split <;> simp

/-- The value of a finite double is its sign, its mantissa and its power of two. -/
theorem value_finite : (Double.finite negative m e).value =
    (if negative then -1 else 1) * ((m : ℚ) * 2 ^ e) := by
  cases negative <;> simp [value]

/-- A double that is a natural number has at most as many digits as doubles have. -/
theorem fits_of_value (h : IsRounded (.finite b m e)) (hvalue : (m : ℚ) * 2 ^ e = n) : Fits n := by
  cases h with
  | finite hlt _ _ _ =>
    obtain ⟨k, rfl | rfl⟩ := e.eq_nat_or_neg
    · exact ⟨m, k, hlt, by exact_mod_cast hvalue.symm⟩
    · -- the number is at most the mantissa
      rw [zpow_neg, zpow_natCast, mul_inv_eq_iff_eq_mul₀ (by positivity)] at hvalue
      have hm : m = n * 2 ^ k := by exact_mod_cast hvalue
      refine fits_of_lt (Nat.lt_of_le_of_lt ?_ hlt)
      rw [hm]
      exact Nat.le_mul_of_pos_right n (by positivity)

/-- A natural number with few digits has a rounded form, up to the greatest exponent. -/
theorem exists_rounded_of_fits (hn : n ≠ 0) (h : Fits n) (hlt : (n : ℚ) < 2 ^ (1024 : ℤ))
    (b : Bool) : ∃ m e, IsRounded (.finite b m e) ∧ m ≠ 0 ∧ (n : ℚ) = m * 2 ^ e := by
  obtain ⟨k, -, hlow, hhigh⟩ := exponentOf_spec hn one_ne_zero
  rw [Nat.cast_one, div_one] at hlow hhigh
  have lt_of_pow {a b : ℤ} (h : (2 : ℚ) ^ a < 2 ^ b) : a < b :=
    (zpow_lt_zpow_iff_right₀ (by decide)).1 h
  have hone : (2 : ℚ) ^ (0 : ℤ) ≤ n := by
    rw [zpow_zero]
    exact_mod_cast Nat.one_le_iff_ne_zero.2 hn
  have hmin := lt_of_pow (lt_of_le_of_lt hone hhigh)
  have hmax := lt_of_pow (lt_of_le_of_lt hlow hlt)
  -- no digit stands behind the point in units of `2 ^ k`
  obtain ⟨m, hm⟩ : ∃ m : Nat, (n : ℚ) = m * 2 ^ k := by
    obtain ⟨j, rfl | rfl⟩ := k.eq_nat_or_neg
    · obtain ⟨m, e, hm, rfl⟩ := h
      have hlt : (2 : ℚ) ^ (j + 52 : ℤ) < 2 ^ (53 + e : ℤ) := by
        refine lt_of_le_of_lt hlow ?_
        rw [zpow_add₀ (by decide), zpow_natCast]
        push_cast
        gcongr
        exact_mod_cast hm
      have hj := lt_of_pow hlt
      obtain ⟨i, rfl⟩ := Nat.exists_eq_add_of_le (show j ≤ e by omega)
      refine ⟨m * 2 ^ i, ?_⟩
      push_cast
      rw [zpow_natCast]
      ring
    · refine ⟨n * 2 ^ j, ?_⟩
      push_cast
      rw [zpow_neg, zpow_natCast, mul_assoc, mul_inv_cancel₀ (by positivity), mul_one]
  have hpos : (0 : ℚ) < 2 ^ k := by positivity
  rw [hm, add_comm, zpow_add₀ (by decide), mul_le_mul_iff_left₀ hpos] at hlow
  rw [hm, add_comm, zpow_add₀ (by decide), mul_lt_mul_iff_left₀ hpos] at hhigh
  have hlow' : 2 ^ 52 ≤ m := by exact_mod_cast hlow
  have hhigh' : m < 2 ^ 53 := by exact_mod_cast hhigh
  exact ⟨m, k, .finite hhigh' (by omega) (by omega) (.inl hlow'), by omega, hm⟩

/-- **Rounding leaves an integer as it is exactly where its digits fit.** -/
theorem value_ofRatio_iff (h : (ofRatio negative n 1).isFinite = true) :
    (ofRatio negative n 1).value = (if negative then -1 else 1) * (n : ℚ) ↔ Fits n := by
  have hsign : (if negative then -1 else 1 : ℚ) ≠ 0 := by cases negative <;> decide
  constructor
  · intro hvalue
    have hrounded := isRounded_ofRatio one_ne_zero h
    cases hx : ofRatio negative n 1 with
    | finite b m e =>
      obtain rfl := ofRatio_sign hx
      rw [hx, value_finite, mul_right_inj' hsign] at hvalue
      exact fits_of_value (hx ▸ hrounded) hvalue
    | infinite b => rw [hx] at h; cases h
    | nan => rw [hx] at h; cases h
  · intro hfits
    rcases eq_or_ne n 0 with rfl | hn
    · cases negative <;> simp [ofRatio, value]
    · have hlt : ((n : ℚ) / (1 : Nat)) < 2 ^ (1024 : ℤ) :=
        not_le.1 fun hle => by
          rw [ofRatio_of_le one_ne_zero hle] at h
          cases h
      rw [Nat.cast_one, div_one] at hlt
      obtain ⟨m, e, hrounded, hm, hvalue⟩ := exists_rounded_of_fits hn hfits hlt negative
      rw [ofRatio_of_isRounded hrounded hm one_ne_zero (by rw [Nat.cast_one, div_one, hvalue]),
        value_finite, hvalue]

/-- **The double nearest to an integer is an integer,** unless it is an infinity. -/
theorem exists_value_ofRatio (h : (ofRatio negative n 1).isFinite = true) :
    ∃ i : Int, (ofRatio negative n 1).value = i := by
  by_cases hfits : Fits n
  · exact ⟨(if negative then -1 else 1) * n, by
      rw [(value_ofRatio_iff h).2 hfits]
      cases negative <;> simp⟩
  have hn : n ≠ 0 := by
    rintro rfl
    exact hfits (fits_of_lt (by decide))
  -- the exponent is not negative
  obtain ⟨k, hk, -, hhigh⟩ := exponentOf_spec hn one_ne_zero
  have hlarge : (2 : ℚ) ^ (53 : ℤ) < 2 ^ (k + 53) := by
    refine lt_of_le_of_lt ?_ hhigh
    rw [Nat.cast_one, div_one]
    exact_mod_cast not_lt.1 (mt fits_of_lt hfits)
  have hpos := (zpow_lt_zpow_iff_right₀ (a := (2 : ℚ)) (by decide)).1 hlarge
  obtain ⟨j, hj⟩ := Int.eq_ofNat_of_zero_le (show 0 ≤ exponentOf n 1 by omega)
  have integer (b : Bool) (m j : Nat) : ∃ i : Int, (finite b m j).value = i :=
    ⟨(if b then -1 else 1) * (m * 2 ^ j), by rw [value_finite, zpow_natCast]; cases b <;> simp⟩
  have hnext : (j : Int) + 1 = (j + 1 : Nat) := rfl
  simp only [ofRatio_eq negative hn, hj, hnext] at h ⊢
  split
  all_goals
    split
    · exact ⟨0, by simp [value]⟩
    · exact integer negative _ _

end

end Double
end SearchFilter
