/-
# Doubles as numerals

A numeral is read as the double nearest to its value, also where the place of its first digit
settles which one this is (`toDouble_eq_ofRatio`). Every rounded double is written by a numeral
(`finite?_spelling`), and no other finite one is (`exists_finite?_iff`):

| double | digits | exponent |
| --- | --- | --- |
| `m * 2 ^ n` | those of `m * 2 ^ n` | `e-0` |
| `m / 2 ^ n` | those of `m * 5 ^ n` | `e-n` |
-/

import Mathlib.Tactic.Ring
import SearchFilter.Number.Decimal
import SearchFilter.Proofs.Number.Rounding

namespace SearchFilter
namespace Decimal

open Double (IsRounded)

/-! ### Digits -/

/-- The first digit counts a power of ten for the digits behind it. -/
theorem natOf_cons (c : Char) (ds : List Char) :
    natOf (c :: ds) = 10 ^ ds.length * digitValue c + natOf ds := by
  have hstart : natOf (c :: ds) = Nat.ofDigitChars 10 ds (10 * 0 + digitValue c) := rfl
  rw [hstart, Nat.ofDigitChars_eq_ofDigitChars_zero, Nat.mul_zero, Nat.zero_add]
  rfl

/-- A digit is less than ten. -/
theorem digitValue_lt {c : Char} (h : c.isDigit = true) : digitValue c < 10 := by
  have hle : c.toNat ≤ 57 := (Char.isDigit_iff_toNat.1 h).2
  have hzero : '0'.toNat = 48 := rfl
  rw [digitValue, hzero]
  omega

/-- Only `0` has the value zero. -/
theorem digitValue_pos {c : Char} (h : c.isDigit = true) (hne : c ≠ '0') : 1 ≤ digitValue c := by
  have hle : 48 ≤ c.toNat := (Char.isDigit_iff_toNat.1 h).1
  have hzero : '0'.toNat = 48 := rfl
  have hne' : c.toNat ≠ 48 := fun he => hne (Char.toNat_inj.1 he)
  rw [digitValue, hzero]
  omega

/-- A number is less than the power of ten that has one digit more. -/
theorem natOf_lt {ds : List Char} (h : ds.all Char.isDigit = true) : natOf ds < 10 ^ ds.length := by
  induction ds with
  | nil => decide
  | cons c ds ih =>
    rw [List.all_cons, Bool.and_eq_true] at h
    have hc := digitValue_lt h.1
    calc natOf (c :: ds) = 10 ^ ds.length * digitValue c + natOf ds := natOf_cons c ds
      _ < 10 ^ ds.length * digitValue c + 10 ^ ds.length := Nat.add_lt_add_left (ih h.2) _
      _ = 10 ^ ds.length * (digitValue c + 1) := by ring
      _ ≤ 10 ^ ds.length * 10 := Nat.mul_le_mul_left _ hc
      _ = 10 ^ (c :: ds).length := (Nat.pow_succ ..).symm

/-- Where it does not start with zero, it is at least the one that has as many. -/
theorem le_natOf {c : Char} (ds : List Char) (h : c.isDigit = true) (hne : c ≠ '0') :
    10 ^ ds.length ≤ natOf (c :: ds) := by
  rw [natOf_cons]
  exact Nat.le_add_right_of_le (Nat.le_mul_of_pos_right _ (digitValue_pos h hne))

/-- Zeros in front do not count. -/
theorem natOf_dropWhile (ds : List Char) : natOf (ds.dropWhile (· == '0')) = natOf ds := by
  induction ds with
  | nil => rfl
  | cons c ds ih =>
    by_cases hc : c = '0'
    · subst hc
      exact ih
    · rw [List.dropWhile_cons_of_neg (by simpa using hc)]

/-! ### The nearest double -/

/-- The value of a numeral without its sign. -/
def Numeral.magnitude (n : Numeral) : ℚ := natOf n.digits * 10 ^ n.scale

/-- The numeral as a quotient of natural numbers. -/
def Numeral.ratio (n : Numeral) : Nat × Nat :=
  (natOf n.digits * 10 ^ n.scale.toNat, 10 ^ (-n.scale).toNat)

/-- The quotient of a numeral is its magnitude. -/
theorem Numeral.ratio_eq (n : Numeral) : (n.ratio.1 : ℚ) / n.ratio.2 = n.magnitude := by
  rw [ratio, magnitude]
  push_cast
  obtain ⟨k, hk | hk⟩ := n.scale.eq_nat_or_neg <;> rw [hk]
  · simp
  · simp [div_eq_mul_inv]

/-- No numeral is a quotient by zero. -/
theorem Numeral.ratio_ne_zero (n : Numeral) : n.ratio.2 ≠ 0 := (Nat.pow_pos (by decide)).ne'

/-- The place of the first digit that is not zero tells the size of a number. -/
theorem magnitude_bounds {c : Char} {ds : List Char} (h : (c :: ds).all Char.isDigit = true)
    (hne : c ≠ '0') (scale : Int) :
    (10 : ℚ) ^ (ds.length + scale) ≤ natOf (c :: ds) * 10 ^ scale ∧
      natOf (c :: ds) * 10 ^ scale < (10 : ℚ) ^ (ds.length + 1 + scale) := by
  have hlow := le_natOf ds (List.all_eq_true.1 h c (List.mem_cons_self ..)) hne
  have hhigh := natOf_lt h
  have hpow : (0 : ℚ) < 10 ^ scale := by positivity
  constructor
  · calc (10 : ℚ) ^ (ds.length + scale) = 10 ^ (ds.length : ℤ) * 10 ^ scale := zpow_add₀ (by decide) _ _
      _ ≤ natOf (c :: ds) * 10 ^ scale := by gcongr; exact_mod_cast hlow
  · calc natOf (c :: ds) * 10 ^ scale < (10 : ℚ) ^ (ds.length + 1 : ℤ) * 10 ^ scale := by
          gcongr; exact_mod_cast hhigh
      _ = 10 ^ (ds.length + 1 + scale) := (zpow_add₀ (by decide) _ _).symm

/-- Beyond these powers of ten no digits tell doubles apart. -/
theorem pow_bounds :
    (10 : ℚ) ^ (-400 : ℤ) < 2 ^ (-1075 : ℤ) ∧ (2 : ℚ) ^ (1024 : ℤ) ≤ 10 ^ (400 : ℤ) := by
  have hsmall : 2 ^ 1075 < 10 ^ 400 := by decide +kernel
  have hlarge : 2 ^ 1024 ≤ 10 ^ 400 := by decide +kernel
  rw [zpow_neg, zpow_neg, inv_lt_inv₀ (by positivity) (by positivity)]
  exact ⟨by exact_mod_cast hsmall, by exact_mod_cast hlarge⟩

/-- **A numeral is read as the double nearest to it,** however many digits it has. -/
theorem toDouble_eq_ofRatio {n : Numeral} (h : n.digits.all Char.isDigit = true) :
    n.toDouble = .ofRatio n.negative n.ratio.1 n.ratio.2 := by
  have hvalue := n.ratio_eq
  have hden := n.ratio_ne_zero
  have hall : (n.digits.dropWhile (· == '0')).all Char.isDigit = true :=
    List.all_eq_true.2 fun c hc =>
      List.all_eq_true.1 h c ((List.dropWhile_suffix _).subset hc)
  have hhead := List.head?_dropWhile_not (· == '0') n.digits
  -- only the digits from the first one on that is not zero count
  rw [Numeral.magnitude] at hvalue
  rw [Numeral.ratio] at hvalue hden ⊢
  rw [← natOf_dropWhile n.digits] at hvalue ⊢
  rw [Numeral.toDouble]
  generalize n.digits.dropWhile (· == '0') = significant at hall hhead hvalue ⊢
  cases significant with
  | nil =>
    have hzero : natOf [] * 10 ^ n.scale.toNat = 0 := Nat.zero_mul _
    simp [Double.ofRatio, hzero]
  | cons c ds =>
    obtain ⟨hlow, hhigh⟩ := magnitude_bounds hall (by simpa using hhead) n.scale
    rw [← hvalue] at hlow hhigh
    simp only [List.isEmpty_cons, List.length_cons, Bool.false_or, decide_eq_true_eq]
    split
    · rename_i hlead
      refine (Double.ofRatio_of_lt hden (hhigh.trans (lt_of_le_of_lt ?_ pow_bounds.1)) _).symm
      exact zpow_le_zpow_right₀ (by decide) (by omega)
    · split
      · rename_i hlead
        refine (Double.ofRatio_of_le hden (pow_bounds.2.trans (le_trans ?_ hlow)) _).symm
        exact zpow_le_zpow_right₀ (by decide) (by omega)
      · rfl

/-- A numeral is read as a finite double below the point where infinities start. -/
theorem Numeral.isFinite_toDouble_iff {n : Numeral} (h : n.digits.all Char.isDigit = true) :
    n.toDouble.isFinite = true ↔ n.magnitude < 2 ^ 1024 - 2 ^ 970 := by
  rw [toDouble_eq_ofRatio h, Double.isFinite_ofRatio_iff n.ratio_ne_zero, ratio_eq]

/-- What is read as a finite double is a numeral. -/
theorem exists_numeral? {s : List Char} {x : Double} (h : finite? s = some x) :
    ∃ n, numeral? s = some n ∧ n.toDouble = x := by
  rw [finite?, Option.filter_eq_some_iff, read?, Option.map_eq_some_iff] at h
  exact h.1

/-- Numerals that are read as finite are read as rounded doubles. -/
theorem isRounded_of_finite? {s : List Char} {x : Double} (h : finite? s = some x) :
    x.IsRounded := by
  have hfinite := isFinite_of_finite? h
  obtain ⟨n, -, rfl⟩ := exists_numeral? h
  revert hfinite
  rw [Numeral.toDouble]
  split
  · exact fun _ => .finite (by decide) (by decide) (by decide) (.inr rfl)
  · split
    · exact nofun
    · exact Double.isRounded_ofRatio n.ratio_ne_zero

/-! ### Spelling a double -/

/-- The numeral of a finite double, in full. -/
def spelling : Double → List Char
  | .finite negative m e =>
    (if negative then ['-'] else []) ++
      (ofNat (m * 2 ^ e.toNat * 5 ^ (-e).toNat) ++ 'e' :: '-' :: ofNat (-e).toNat)
  | _ => []

/-- A digit is no sign. -/
theorem splitSign_of_isDigit {s : List Char} (h : ∀ c ∈ s.head?, c.isDigit = true) :
    splitSign s = (false, s) := by
  have hsign {c : Char} (hc : c.isDigit = false) (t : List Char) : s ≠ c :: t := by
    rintro rfl
    rw [h c rfl] at hc
    cases hc
  rw [splitSign]
  · exact fun t => hsign (by decide) t
  · exact fun t => hsign (by decide) t

section
variable {ds ps : List Char}

/-- A minus sign is cut from the digits behind it. -/
theorem splitSign_digits (negative : Bool) (hne : ds ≠ []) (h : ds.all Char.isDigit = true)
    (r : List Char) :
    splitSign ((if negative then ['-'] else []) ++ (ds ++ r)) = (negative, ds ++ r) := by
  cases negative with
  | true => rfl
  | false =>
    obtain ⟨c, ds, rfl⟩ := List.exists_cons_of_ne_nil hne
    rw [List.all_cons, Bool.and_eq_true] at h
    exact splitSign_of_isDigit (by rintro _ ⟨⟩; exact h.1)

/-- Digits without a point. -/
theorem numeral?_whole (negative : Bool) (hne : ds ≠ []) (h : ds.all Char.isDigit = true) :
    numeral? ((if negative then ['-'] else []) ++ ds) = some ⟨negative, ds, 0⟩ := by
  have hsign := splitSign_digits negative hne h []
  have hspan : spanDigits ds = (ds, []) := by simpa using spanDigits_append (r := []) h (by simp)
  rw [List.append_nil] at hsign
  simp [numeral?, hsign, hspan, hne, exponent?]

/-- Digits with a point between them. -/
theorem numeral?_places (negative : Bool) (hne : ds ≠ []) (h : ds.all Char.isDigit = true)
    (h' : ps.all Char.isDigit = true) :
    numeral? ((if negative then ['-'] else []) ++ (ds ++ '.' :: ps)) =
      some ⟨negative, ds ++ ps, -(ps.length : Int)⟩ := by
  have hsign := splitSign_digits negative hne h ('.' :: ps)
  have hspan : spanDigits (ds ++ '.' :: ps) = (ds, '.' :: ps) :=
    spanDigits_append h (by rintro _ ⟨⟩; decide)
  have hspan' : spanDigits ps = (ps, []) := by simpa using spanDigits_append (r := []) h' (by simp)
  simp [numeral?, hsign, hspan, hspan', hne, exponent?]

end

/-- A spelling is read as its digits with a negative exponent. -/
theorem numeral?_spelled (negative : Bool) (n k : Nat) :
    numeral? ((if negative then ['-'] else []) ++ (ofNat n ++ 'e' :: '-' :: ofNat k)) =
      some ⟨negative, ofNat n, -(k : Int)⟩ := by
  have hdigits := isDigit_ofNat n
  have hne (n : Nat) : ofNat n ≠ [] := Nat.toDigits_ne_nil
  have hsign := splitSign_digits negative (hne n) hdigits ('e' :: '-' :: ofNat k)
  have hspan : spanDigits (ofNat n ++ 'e' :: '-' :: ofNat k) = (ofNat n, 'e' :: '-' :: ofNat k) :=
    spanDigits_append hdigits (by rintro _ ⟨⟩; decide)
  have hexponent : exponent? ('e' :: '-' :: ofNat k) = some (-(k : Int)) := by
    simp [exponent?, splitSign, hne, isDigit_ofNat, natOf_ofNat]
  simp [numeral?, hsign, hspan, hne, hexponent]

/-- A spelling has the value of the double that it is for. -/
theorem magnitude_spelled (negative : Bool) (m : Nat) (e : Int) :
    Numeral.magnitude ⟨negative, ofNat (m * 2 ^ e.toNat * 5 ^ (-e).toNat), -((-e).toNat : Int)⟩ =
      m * 2 ^ e := by
  simp only [Numeral.magnitude, natOf_ofNat]
  push_cast
  exact Double.decimal_value m e

/-- **Every rounded double is written by its spelling.** -/
theorem finite?_spelling {x : Double} (h : x.IsRounded) : finite? (spelling x) = some x := by
  cases h with
  | @finite negative m e hlt hmin hmax hfull =>
    have hread : read? (spelling (.finite negative m e)) = some (.finite negative m e) := by
      have hvalue := (Numeral.ratio_eq _).trans (magnitude_spelled negative m e)
      rw [read?, spelling, numeral?_spelled, Option.map_some, toDouble_eq_ofRatio (isDigit_ofNat _)]
      rcases eq_or_ne m 0 with rfl | hm
      · -- the ratio is zero
        obtain rfl := hfull.resolve_left (by decide)
        rw [Numeral.ratio, natOf_ofNat, Nat.zero_mul, Nat.zero_mul, Nat.zero_mul]
        rfl
      · rw [Double.ofRatio_of_isRounded (.finite hlt hmin hmax hfull) hm (Numeral.ratio_ne_zero _)
          hvalue]
    rw [finite?, hread]
    rfl

/-- **Numerals write the rounded doubles,** and no other finite ones. -/
theorem exists_finite?_iff {x : Double} : (∃ s, finite? s = some x) ↔ x.IsRounded :=
  ⟨fun ⟨_, h⟩ => isRounded_of_finite? h, fun h => ⟨_, finite?_spelling h⟩⟩

/-! ### The characters of numerals -/

/-- A character that numerals are written with. -/
def isNumeralChar (c : Char) : Bool := c.isDigit || ['+', '-', '.', 'e', 'E'].contains c

/-- Digits are characters of numerals. -/
theorem isNumeralChar_of_isDigit {c : Char} (h : c.isDigit = true) : isNumeralChar c = true := by
  rw [isNumeralChar, h, Bool.true_or]

/-- A sign that is cut off is one of the characters of numerals. -/
theorem splitSign_eq (s : List Char) :
    ∃ sign, s = sign ++ (splitSign s).2 ∧ sign.all isNumeralChar = true := by
  fun_cases splitSign s with
  | case1 r => exact ⟨['+'], rfl, by decide⟩
  | case2 r => exact ⟨['-'], rfl, by decide⟩
  | case3 => exact ⟨[], rfl, rfl⟩

/-- Digits that are cut off are characters of numerals. -/
theorem spanDigits_eq (s : List Char) :
    s = (spanDigits s).1 ++ (spanDigits s).2 ∧ (spanDigits s).1.all isNumeralChar = true := by
  refine ⟨List.takeWhile_append_dropWhile.symm, List.all_eq_true.2 fun _ hc => ?_⟩
  exact isNumeralChar_of_isDigit (List.all_eq_true.1 List.all_takeWhile _ hc)

/-- An exponent part has no other characters than those of numerals. -/
theorem all_of_exponent? {s : List Char} {e : Int} (h : exponent? s = some e) :
    s.all isNumeralChar = true := by
  cases s with
  | nil => rfl
  | cons c r =>
    obtain ⟨sign, hr, hsign⟩ := splitSign_eq r
    simp only [exponent?] at h
    split at h
    · rename_i hc
      split at h
      · rename_i hdigits
        rw [Bool.and_eq_true] at hdigits
        have hall : (splitSign r).2.all isNumeralChar = true := List.all_eq_true.2 fun d hd =>
          isNumeralChar_of_isDigit (List.all_eq_true.1 hdigits.2 d hd)
        rw [List.all_cons, hr, List.all_append, hsign, hall]
        rcases hc with rfl | rfl <;> rfl
      · cases h
    · cases h

/-- **A numeral has no other characters,** and one at least. -/
theorem all_of_numeral? {s : List Char} {n : Numeral} (h : numeral? s = some n) :
    s ≠ [] ∧ s.all isNumeralChar = true := by
  refine ⟨?_, ?_⟩
  · rintro rfl
    cases h
  obtain ⟨sign, hs, hsign⟩ := splitSign_eq s
  obtain ⟨hspan, hwhole⟩ := spanDigits_eq (splitSign s).2
  simp only [numeral?] at h
  have hrest : (spanDigits (splitSign s).2).2.all isNumeralChar = true := by
    generalize (spanDigits (splitSign s).2).2 = r at h ⊢
    split at h
    · -- a point, and digits behind it
      rename_i r
      obtain ⟨hr, hplaces⟩ := spanDigits_eq r
      obtain ⟨e, he, -⟩ := Option.map_eq_some_iff.1 (Option.ite_none_left_eq_some.1 h).2
      rw [List.all_cons, hr, List.all_append, hplaces, all_of_exponent? he]
      rfl
    · obtain ⟨e, he, -⟩ := Option.map_eq_some_iff.1 (Option.ite_none_left_eq_some.1 h).2
      exact all_of_exponent? he
  rw [hs, List.all_append, hsign, hspan, List.all_append, hwhole, hrest]
  rfl

end Decimal
end SearchFilter
