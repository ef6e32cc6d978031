/-
# Values that denote integers

An integer is compared with as the double nearest to it, unless this is an infinity: then its
text is compared with. What is rendered has the double as a number again, or as the text of one:

| double | parameter | attribute |
| --- | --- | --- |
| an integer below `2 ^ 63` | the integer | its digits |
| a larger one | the double | the fewest digits that identify it, and zeros |
| an infinity | the text | the text |

So a parameter denotes the integer exactly where the nearest double does
(`denotes_parameter_iff`), and from `2 ^ 63` on an attribute does so exactly where its digits are
those of the integer (`denotes_attribute_iff`).
-/

import SearchFilter.Json.Basic
import SearchFilter.Proofs.Number.Integer
import SearchFilter.Proofs.Number.Spelling
import SearchFilter.Proofs.Render.Predicate
import SearchFilter.Proofs.Render.Statement

namespace SearchFilter

/-! ### Texts that denote integers -/

namespace Decimal

/-- The value of a numeral. -/
def Numeral.value (n : Numeral) : ℚ := (if n.negative then -1 else 1) * n.magnitude

/-- A text is a numeral with the value of an integer. -/
def Denotes (i : Int) (s : List Char) : Prop := ∃ n, numeral? s = some n ∧ n.value = i

/-- A numeral denotes the integer that is its value. -/
theorem denotes_iff {i : Int} {s : List Char} {n : Numeral} (h : numeral? s = some n) :
    Denotes i s ↔ n.value = i := by
  simp [Denotes, h]

/-- The text of an integer: its digits, perhaps with zeros in front of them, behind a minus sign
below zero. -/
inductive WritesInteger : Int → List Char → Prop
  | plain {ds : List Char} : IsDigits ds → WritesInteger (natOf ds) ds
  | minus {ds : List Char} : IsDigits ds → WritesInteger (-(natOf ds)) ('-' :: ds)

/-- The text of an integer is a sign or none and digits. -/
theorem WritesInteger.exists_digits {i : Int} {d : List Char} (h : WritesInteger i d) :
    ∃ (negative : Bool) (ds : List Char), IsDigits ds ∧ d = (if negative then ['-'] else []) ++ ds ∧
      i = (if negative then -1 else 1) * natOf ds := by
  cases h with
  | plain hds => exact ⟨false, _, hds, rfl, by simp⟩
  | minus hds => exact ⟨true, _, hds, rfl, by simp⟩

/-- The digits of an integer denote no other. -/
theorem denotes_ofInt {i j : Int} : Denotes i (ofInt j) ↔ j = i := by
  obtain ⟨hne, hall⟩ := isDigits_ofNat j.natAbs
  have hdigits : ofInt j = (if decide (j < 0) then ['-'] else []) ++ ofNat j.natAbs := by
    rw [ofInt]
    by_cases hj : j < 0 <;> simp [hj]
  have hvalue : Numeral.value ⟨decide (j < 0), ofNat j.natAbs, 0⟩ = j := by
    rw [Numeral.value, Numeral.magnitude, natOf_ofNat, zpow_zero, mul_one, Nat.cast_natAbs]
    by_cases hj : j < 0
    · simp [hj, abs_of_neg hj]
    · simp [hj, abs_of_nonneg (not_lt.1 hj)]
  rw [hdigits, denotes_iff (numeral?_whole _ hne hall), hvalue, Int.cast_inj]

/-- **Without exponents the fewest digits that identify a double keep their value.** -/
theorem denotes_write {l : Layout} (hplain : l.plain = none)
    {negative : Bool} {m : Nat} {e i : Int} (hm : m ≠ 0) :
    Denotes i (l.write negative m e) ↔
      (if negative then -1 else 1) * (shortest l.tie m e).value = i := by
  obtain ⟨p, rfl, -, -, hp⟩ := exists_parts_positional
    (isDigits_ofNat (shortest l.tie m e).digits) (shortest l.tie m e).scale negative l
  have hvalue : p.numeral.value = (if p.negative then -1 else 1) * (shortest l.tie m e).value := by
    rw [Numeral.value, hp.magnitude, natOf_ofNat, Digits.value]
    rfl
  rw [Layout.write, if_neg hm]
  simp only [hplain, if_true]
  rw [hp.text, denotes_iff (Parts.numeral?_write hp.proper), hvalue]

/-- The text of an integer denotes it. -/
theorem WritesInteger.denotes {i : Int} {d : List Char} (h : WritesInteger i d) : Denotes i d := by
  obtain ⟨negative, ds, ⟨hne, hall⟩, rfl, rfl⟩ := h.exists_digits
  rw [denotes_iff (numeral?_whole negative hne hall)]
  simp [Numeral.value, Numeral.magnitude]

/-- **The text of an integer is read as the double nearest to it.** -/
theorem WritesInteger.read? {i : Int} {d : List Char} (h : WritesInteger i d) :
    ∃ negative : Bool, (i : ℚ) = (if negative then -1 else 1) * (i.natAbs : ℚ) ∧
      read? d = some (.ofRatio negative i.natAbs 1) := by
  obtain ⟨negative, ds, ⟨hne, hall⟩, rfl, rfl⟩ := h.exists_digits
  have habs : ((if negative then -1 else 1) * (natOf ds : ℤ)).natAbs = natOf ds := by
    cases negative <;> simp
  refine ⟨negative, by rw [habs]; cases negative <;> simp, ?_⟩
  rw [Decimal.read?, numeral?_whole negative hne hall, Option.map_some, toDouble_eq_ofRatio hall,
    habs]
  simp [Numeral.ratio]

end Decimal

/-! ### Doubles that denote integers -/

namespace Double

/-- The double nearest to a natural number is at least `2 ^ 63`, and the fewest digits that
identify it write the number. -/
def IsShortest (n : Nat) : Prop :=
  ∃ m e, ofRatio false n 1 = .finite false m e ∧ (2 : ℚ) ^ 63 ≤ m * 2 ^ e ∧
    (Decimal.shortest .up m e).value = n

/-- Of the nearest double it matters that it is large and what its fewest digits write. -/
theorem isShortest_iff {negative : Bool} {n m : Nat} {e : Int}
    (h : ofRatio negative n 1 = .finite negative m e) :
    IsShortest n ↔ (2 : ℚ) ^ 63 ≤ m * 2 ^ e ∧ (Decimal.shortest .up m e).value = n := by
  have hplain := (ofRatio_eq_finite_iff negative false).1 h
  constructor
  · rintro ⟨m', e', h', hle, hvalue⟩
    obtain ⟨-, rfl, rfl⟩ := Double.finite.inj (hplain.symm.trans h')
    exact ⟨hle, hvalue⟩
  · exact fun ⟨hle, hvalue⟩ => ⟨m, e, hplain, hle, hvalue⟩

end Double

/-- A parameter denotes an integer. -/
def Json.Denotes (i : Int) : Json → Prop
  | .string s => Decimal.Denotes i s.toList
  | .number (.integer j) => j = i
  | .number (.real x) => x.isFinite = true ∧ x.value = i
  | _ => False

/-- An attribute denotes an integer, as a text or as a number. -/
def PartiQL.Attribute.Denotes (i : Int) (a : Attribute) : Prop := Decimal.Denotes i a.content.toList

/-- **A double is bound as what it is.** -/
theorem denotes_parameter {x : Double} (hx : x.isFinite = true) {i : Int} :
    (Value.number x).parameter.Denotes i ↔ x.value = i := by
  rw [Value.parameter]
  split
  · rename_i j hj
    obtain ⟨hvalue, -⟩ := (Double.toInt63?_eq_some_iff hx).1 hj
    rw [hvalue, Int.cast_inj]
    exact Iff.rfl
  · exact ⟨fun h => h.2, fun h => ⟨hx, h⟩⟩

/-! ### The texts of doubles that are integers -/

/-- **A double that is an integer is written as it is below `2 ^ 63`,** and with the fewest digits
that identify it from there on. -/
theorem denotes_numberText {b : Bool} {m : Nat} {e i j : Int}
    (hj : (Double.finite b m e).value = j) :
    Decimal.Denotes i (PartiQL.numberText (.finite b m e)).toList ↔
      j = i ∧ i.natAbs < 2 ^ 63 ∨
        (2 : ℚ) ^ 63 ≤ m * 2 ^ e ∧
          (if b then -1 else 1) * (Decimal.shortest .up m e).value = i := by
  have hx : (Double.finite b m e).isFinite = true := rfl
  have habs : (j.natAbs : ℚ) = m * 2 ^ e := by
    have hnonneg : (0 : ℚ) ≤ m * 2 ^ e := by positivity
    rw [Nat.cast_natAbs, Int.cast_abs, ← hj, Double.value_finite]
    cases b <;> simp [abs_of_nonneg hnonneg]
  rw [← habs]
  by_cases hsmall : j.natAbs < 2 ^ 63
  · have hlt : (j.natAbs : ℚ) < 2 ^ 63 := by exact_mod_cast hsmall
    have hinteger := (Double.toInt63?_eq_some_iff hx).2 ⟨hj, hsmall⟩
    simp only [PartiQL.numberText, hinteger, String.toList_ofList]
    rw [Decimal.denotes_ofInt, or_iff_left fun h => not_le.2 hlt h.1]
    exact ⟨fun h => ⟨h, h ▸ hsmall⟩, And.left⟩
  · have hle : (2 : ℚ) ^ 63 ≤ j.natAbs := by exact_mod_cast not_lt.1 hsmall
    have hnone : (Double.finite b m e).toInt63? = none :=
      Option.eq_none_iff_forall_ne_some.2 fun k hk => by
        obtain ⟨hvalue, hlt⟩ := (Double.toInt63?_eq_some_iff hx).1 hk
        rw [hj, Int.cast_inj] at hvalue
        exact hsmall (hvalue ▸ hlt)
    have hm : m ≠ 0 := by
      rintro rfl
      rw [habs] at hle
      norm_num at hle
    simp only [PartiQL.numberText, hnone]
    have hne : ¬ (j = i ∧ i.natAbs < 2 ^ 63) := fun h => hsmall (h.1 ▸ h.2)
    rw [RenderError.numberText, String.toList_ofList, Decimal.denotes_write rfl hm,
      or_iff_right hne, and_iff_right hle]

/-! ### Integers in comparisons -/

/-- What a text is compared with: the number that it writes, unless this is not finite. -/
def Value.ofNumeral (s : String) : Value :=
  match Decimal.finite? s.toList with
  | some x => .number x
  | none => .text s

/-- The attribute of a bound is that of what the text is compared with. -/
theorem Value.boundAttribute_text (s : String) :
    (Value.text s).boundAttribute = (ofNumeral s).attribute := by
  cases h : Decimal.finite? s.toList <;> simp [boundAttribute, ofNumeral, Value.attribute, h]

section
variable {i : Int} {s : String}

/-- The text of an integer is compared with the nearest double, or is kept where that is none. -/
theorem Decimal.WritesInteger.ofNumeral_eq (h : Decimal.WritesInteger i s.toList) :
    ∃ negative : Bool, (i : ℚ) = (if negative then -1 else 1) * (i.natAbs : ℚ) ∧
      ((Double.ofRatio negative i.natAbs 1).isFinite = true ∧
          (i.natAbs : ℚ) < 2 ^ 1024 - 2 ^ 970 ∧
          Value.ofNumeral s = .number (.ofRatio negative i.natAbs 1) ∨
        (2 : ℚ) ^ 1024 - 2 ^ 970 ≤ i.natAbs ∧ Value.ofNumeral s = .text s) := by
  obtain ⟨negative, hi, hread⟩ := h.read?
  have hfinite := @Double.isFinite_ofRatio_iff i.natAbs 1 one_ne_zero negative
  rw [Nat.cast_one, div_one] at hfinite
  refine ⟨negative, hi, ?_⟩
  rw [Value.ofNumeral, Decimal.finite?, hread]
  by_cases hx : (Double.ofRatio negative i.natAbs 1).isFinite = true
  · exact .inl ⟨hx, hfinite.1 hx, by rw [Option.filter_some, if_pos hx]⟩
  · exact .inr ⟨not_lt.1 (mt hfinite.2 hx), by rw [Option.filter_some, if_neg hx]⟩

/-- **An integer is bound as what it is exactly where it is a double, or is too large for any.** -/
theorem denotes_parameter_iff (h : Decimal.WritesInteger i s.toList) :
    (Value.ofNumeral s).parameter.Denotes i ↔
      (2 : ℚ) ^ 1024 - 2 ^ 970 ≤ i.natAbs ∨ Double.Fits i.natAbs := by
  obtain ⟨negative, hi, ⟨hx, hlt, hvalue⟩ | ⟨hle, hvalue⟩⟩ := h.ofNumeral_eq
  · have hexact := Double.value_ofRatio_iff hx
    rw [← hi] at hexact
    rw [hvalue, denotes_parameter hx, hexact, or_iff_right (not_le.2 hlt)]
  · rw [hvalue]
    exact iff_of_true h.denotes (.inl hle)

/-- **The text of the double nearest to an integer denotes it** where it has at most 63 binary
digits and is the double, or is the fewest digits of a larger one. -/
theorem denotes_numberText_ofRatio {negative : Bool}
    (hx : (Double.ofRatio negative i.natAbs 1).isFinite = true)
    (hi : (i : ℚ) = (if negative then -1 else 1) * (i.natAbs : ℚ)) :
    Decimal.Denotes i (PartiQL.numberText (.ofRatio negative i.natAbs 1)).toList ↔
      i.natAbs < 2 ^ 63 ∧ Double.Fits i.natAbs ∨ Double.IsShortest i.natAbs := by
  have hexact := Double.value_ofRatio_iff hx
  rw [← hi] at hexact
  obtain ⟨j, hj⟩ := Double.exists_value_ofRatio hx
  cases hround : Double.ofRatio negative i.natAbs 1 with
  | infinite b => rw [hround] at hx; cases hx
  | nan => rw [hround] at hx; cases hx
  | finite b m e =>
    obtain rfl := Double.ofRatio_sign hround
    have hsign : (if b then -1 else 1 : ℚ) ≠ 0 := by cases b <;> decide
    rw [hround] at hexact hj
    rw [hj, Int.cast_inj] at hexact
    rw [denotes_numberText hj, Double.isShortest_iff hround, hexact, hi, mul_right_inj' hsign,
      and_comm]

/-- **An integer is listed as what it is exactly where it is too large for any double, or is one
below `2 ^ 63`, or has the fewest digits of its double.** -/
theorem denotes_attribute_iff (h : Decimal.WritesInteger i s.toList) :
    (Value.ofNumeral s).attribute.Denotes i ↔ (2 : ℚ) ^ 1024 - 2 ^ 970 ≤ i.natAbs ∨
      i.natAbs < 2 ^ 63 ∧ Double.Fits i.natAbs ∨ Double.IsShortest i.natAbs := by
  obtain ⟨negative, hi, ⟨hx, hlt, hvalue⟩ | ⟨hle, hvalue⟩⟩ := h.ofNumeral_eq
  · rw [hvalue, or_iff_right (not_le.2 hlt)]
    exact denotes_numberText_ofRatio hx hi
  · rw [hvalue]
    exact iff_of_true h.denotes (.inl hle)

end

end SearchFilter
