/-
# Written numbers are read back

A finite double is written as a sign or none, a whole part, perhaps places behind a point, and
perhaps an exponent:

| text | whole | places | exponent |
| --- | --- | --- | --- |
| `-0.0` | `0` | `0` | |
| `12.5` | `12` | `5` | |
| `1e-7` | `1` | | `-7` |

Such parts are a numeral (`numeral?_write`), and its value is the one of the digits that were
written. These lie in the rounding interval of the double, so that every layout is read back as the
double (`read?_write`).
-/

import SearchFilter.Number.Notation
import SearchFilter.Proofs.Number.Nearest
import SearchFilter.Proofs.Number.Spelling

namespace SearchFilter

/-! ### Digits -/

/-- Some digits and nothing else. -/
def IsDigits (ds : List Char) : Prop := ds ≠ [] ∧ ds.all Char.isDigit = true

/-- A natural number is written with digits. -/
theorem isDigits_ofNat (n : Nat) : IsDigits (Decimal.ofNat n) :=
  ⟨Nat.toDigits_ne_nil, Decimal.isDigit_ofNat n⟩

/-- Digits with zeros behind them are digits. -/
theorem IsDigits.append_zeros {ds : List Char} (h : IsDigits ds) (n : Nat) :
    IsDigits (ds ++ List.replicate n '0') := by
  refine ⟨by simp [h.1], ?_⟩
  rw [List.all_append, h.2, Bool.true_and, List.all_eq_true]
  intro c hc
  obtain rfl := List.eq_of_mem_replicate hc
  decide

/-- Digits with zeros in front of them are digits. -/
theorem IsDigits.zeros_append {ds : List Char} (h : IsDigits ds) (n : Nat) :
    IsDigits (List.replicate n '0' ++ ds) := by
  refine ⟨by simp [h.1], ?_⟩
  rw [List.all_append, h.2, Bool.and_true, List.all_eq_true]
  intro c hc
  obtain rfl := List.eq_of_mem_replicate hc
  decide

/-- Digits that are cut between two of them are digits on both sides. -/
theorem IsDigits.split {ds : List Char} (h : IsDigits ds) {n : Nat} (h₀ : 0 < n)
    (hn : n < ds.length) : IsDigits (ds.take n) ∧ IsDigits (ds.drop n) := by
  have hall := h.2
  rw [← List.take_append_drop n ds, List.all_append, Bool.and_eq_true] at hall
  refine ⟨⟨?_, hall.1⟩, ?_, hall.2⟩
  · rw [← List.length_pos_iff, List.length_take]
    omega
  · rw [← List.length_pos_iff, List.length_drop]
    omega

namespace Decimal

open Double (IsRounded)

/-- Digits in front of others count a power of ten with as many zeros as there are others. -/
theorem natOf_append (ds ps : List Char) :
    natOf (ds ++ ps) = natOf ds * 10 ^ ps.length + natOf ps := by
  induction ds with
  | nil => simp [natOf]
  | cons c ds ih =>
    rw [List.cons_append, natOf_cons, natOf_cons, ih, List.length_append, pow_add]
    ring

/-- Zeros count nothing. -/
theorem natOf_zeros (n : Nat) : natOf (List.replicate n '0') = 0 := by
  induction n with
  | zero => rfl
  | succ n ih => rw [List.replicate_succ, natOf_cons, ih]; rfl

/-- A positive number does not start with zero. -/
theorem head?_ofNat {n : Nat} (hn : n ≠ 0) : (ofNat n).head? ≠ some '0' := by
  induction n using Nat.strong_induction_on with
  | _ n ih =>
    rw [ofNat, Nat.toDigits_eq_if (by decide)]
    split
    · rename_i hlt
      have hdigit : natOf [n.digitChar] = n := by
        rw [← Nat.toDigits_of_lt_base hlt]
        exact natOf_ofNat n
      intro hzero
      rw [Option.some.inj hzero] at hdigit
      exact hn hdigit.symm
    · rename_i hge
      rw [List.head?_append_of_ne_nil _ Nat.toDigits_ne_nil]
      exact ih (n / 10) (by omega) (by omega)

/-! ### Numerals by their parts -/

/-- The parts of a written number. -/
structure Parts where
  negative : Bool
  whole : List Char
  /-- the digits behind the point, which is left out where there are none -/
  places : List Char
  exponent : Option Int

namespace Parts

/-- An exponent part, with a sign. -/
def exponentText : Option Int → List Char
  | none => []
  | some k => 'e' :: if k < 0 then ofInt k else '+' :: ofInt k

/-- The text of the parts. -/
def write (p : Parts) : List Char :=
  (if p.negative then ['-'] else []) ++
    (p.whole ++ ((if p.places = [] then [] else '.' :: p.places) ++ exponentText p.exponent))

/-- The numeral of the parts. -/
def numeral (p : Parts) : Numeral :=
  ⟨p.negative, p.whole ++ p.places, p.exponent.getD 0 - p.places.length⟩

/-- There is a whole part, and the parts consist of digits. -/
structure IsProper (p : Parts) : Prop where
  whole : IsDigits p.whole
  places : p.places.all Char.isDigit = true

/-- The digits of a numeral from such parts are digits. -/
theorem IsProper.isDigit {p : Parts} (h : p.IsProper) : p.numeral.digits.all Char.isDigit = true := by
  rw [numeral, List.all_append, h.whole.2, h.places]
  rfl

/-- An exponent part is empty or starts with its letter. -/
theorem exponentText_cases (k : Option Int) :
    exponentText k = [] ∨ ∃ t, exponentText k = 'e' :: t := by
  cases k with
  | none => exact .inl rfl
  | some k => exact .inr ⟨_, rfl⟩

/-- An exponent part does not start with a digit. -/
theorem isDigit_head_exponentText (k : Option Int) :
    ∀ c ∈ (exponentText k).head?, c.isDigit = false := by
  rcases exponentText_cases k with ht | ⟨t, ht⟩
  · simp [ht]
  · rw [ht]
    rintro _ ⟨⟩
    rfl

/-- An exponent part is read as its exponent. -/
theorem exponent?_exponentText (k : Option Int) : exponent? (exponentText k) = some (k.getD 0) := by
  cases k with
  | none => rfl
  | some k =>
    obtain ⟨hne, hall⟩ := isDigits_ofNat k.natAbs
    rw [exponentText, Option.getD_some]
    split
    · rename_i hk
      have hvalue : -(k.natAbs : Int) = k := by omega
      simp only [ofInt, if_pos hk, exponent?, splitSign, natOf_ofNat, hvalue]
      simp [hne, hall]
    · rename_i hk
      have hvalue : (k.natAbs : Int) = k := by omega
      simp only [ofInt, if_neg hk, exponent?, splitSign, natOf_ofNat, hvalue]
      simp [hne, hall]

/-- **Parts are read as their numeral.** -/
theorem numeral?_write {p : Parts} (h : p.IsProper) : numeral? p.write = some p.numeral := by
  obtain ⟨negative, whole, places, exponent⟩ := p
  have hne : whole ≠ [] := h.whole.1
  have hwhole : whole.all Char.isDigit = true := h.whole.2
  have hplaces : places.all Char.isDigit = true := h.places
  have hexponent := exponent?_exponentText exponent
  have hsign := splitSign_digits negative hne hwhole
    ((if places = [] then [] else '.' :: places) ++ exponentText exponent)
  have hend := isDigit_head_exponentText exponent
  simp only [write, numeral?, hsign]
  by_cases hnone : places = []
  · -- without places the exponent part follows at once
    subst hnone
    simp only [if_true, List.nil_append, spanDigits_append hwhole hend]
    rcases exponentText_cases exponent with ht | ⟨t, ht⟩
    all_goals
      rw [ht] at hexponent ⊢
      simp [hexponent, hne, numeral]
  · simp only [if_neg hnone, List.cons_append]
    rw [spanDigits_append hwhole (by rintro _ ⟨⟩; decide)]
    simp only [spanDigits_append hplaces hend]
    simp [hexponent, hne, numeral]

/-- Parts start with a sign or a digit. -/
theorem IsProper.exists_cons {p : Parts} (h : p.IsProper) :
    ∃ c t, p.write = c :: t ∧ (c = '-' ∨ c.isDigit = true) := by
  obtain ⟨hne, hall⟩ := h.whole
  obtain ⟨c, ds, hwhole⟩ := List.exists_cons_of_ne_nil hne
  rw [hwhole, List.all_cons, Bool.and_eq_true] at hall
  rw [write, hwhole]
  split
  · exact ⟨'-', _, rfl, .inl rfl⟩
  · exact ⟨c, _, rfl, .inr hall.1⟩

/-- The parts of an integer. -/
def ofInt (i : Int) : Parts := ⟨decide (i < 0), ofNat i.natAbs, [], none⟩

/-- The parts of an integer write it. -/
theorem write_ofInt (i : Int) : (ofInt i).write = Decimal.ofInt i := by
  rw [Decimal.ofInt]
  by_cases hi : i < 0 <;> simp [ofInt, hi, write, exponentText]

/-- The parts of an integer are digits. -/
theorem isProper_ofInt (i : Int) : (ofInt i).IsProper := ⟨isDigits_ofNat i.natAbs, rfl⟩

/-- An integer has no zero in front of other digits. -/
theorem lead_ofInt (i : Int) :
    (ofInt i).whole.length = 1 ∨ (ofInt i).whole.head? ≠ some '0' := by
  by_cases hi : i.natAbs = 0
  · left
    rw [ofInt, hi]
    rfl
  · exact .inr (head?_ofNat hi)

end Parts

/-! ### Written digits -/

/-- Parts write a text, and their value is that of digits with a scale. -/
structure Parts.Writes (p : Parts) (ds : List Char) (scale : Int) (t : List Char) : Prop where
  proper : p.IsProper
  text : (if p.negative then ['-'] else []) ++ t = p.write
  magnitude : p.numeral.magnitude = natOf ds * 10 ^ scale
  /-- zeros in front are written before the point alone -/
  lead : p.whole = ['0'] ∨ p.whole.head? = ds.head?

section
variable {ds : List Char} (hds : IsDigits ds) (scale : Int) (negative : Bool)
include hds

/-- **Digits keep their value wherever the scale puts the point.** -/
theorem exists_parts_positional (l : Layout) : ∃ p : Parts, p.negative = negative ∧
    p.exponent = none ∧ (l.pointZero = true → p.places ≠ []) ∧
    p.Writes ds scale (l.positional ds scale) := by
  rw [Layout.positional]
  split
  · -- the point is behind all digits
    rename_i hscale
    obtain ⟨k, rfl⟩ := Int.eq_ofNat_of_zero_le hscale
    have hhead : (ds ++ List.replicate k '0').head? = ds.head? := List.head?_append_of_ne_nil _ hds.1
    cases hpoint : l.pointZero with
    | true =>
      refine ⟨⟨negative, ds ++ List.replicate k '0', ['0'], none⟩, rfl, rfl, by simp,
        ⟨hds.append_zeros k, rfl⟩, by simp [Parts.write, Parts.exponentText], ?_, .inr hhead⟩
      have hzero : natOf ['0'] = 0 := rfl
      simp only [Parts.numeral, Numeral.magnitude, natOf_append, natOf_zeros, hzero]
      simp
    | false =>
      refine ⟨⟨negative, ds ++ List.replicate k '0', [], none⟩, rfl, rfl, by simp,
        ⟨hds.append_zeros k, rfl⟩, by simp [Parts.write, Parts.exponentText], ?_, .inr hhead⟩
      simp [Parts.numeral, Numeral.magnitude, natOf_append, natOf_zeros]
  · rename_i hscale
    split
    · -- the point is between two digits
      rename_i hlead
      obtain ⟨hwhole, hplaces⟩ := hds.split (n := (ds.length + scale).toNat) (by omega) (by omega)
      have hlength : -((ds.drop (ds.length + scale).toNat).length : Int) = scale := by
        rw [List.length_drop]
        omega
      refine ⟨⟨negative, _, _, none⟩, rfl, rfl, fun _ => hplaces.1, ⟨hwhole, hplaces.2⟩,
        by simp [Parts.write, Parts.exponentText, hplaces.1], ?_, .inr ?_⟩
      · simp only [Parts.numeral, Numeral.magnitude, Option.getD_none, zero_sub, hlength,
          List.take_append_drop]
      · rw [List.head?_take, if_neg (by omega)]
    · -- the point is in front of all digits, with zeros behind it
      have hplaces := hds.zeros_append (-(ds.length + scale)).toNat
      have hlength : -((List.replicate (-(ds.length + scale)).toNat '0' ++ ds).length : Int) =
          scale := by
        rw [List.length_append, List.length_replicate]
        omega
      have hzero : natOf ['0'] = 0 := rfl
      have hwhole : IsDigits ['0'] := ⟨by simp, by decide⟩
      refine ⟨⟨negative, ['0'], _, none⟩, rfl, rfl, fun _ => hplaces.1, ⟨hwhole, hplaces.2⟩,
        by simp only [Parts.write, Parts.exponentText, if_neg hplaces.1]; simp, ?_, .inl rfl⟩
      simp only [Parts.numeral, Numeral.magnitude, Option.getD_none, zero_sub, hlength,
        natOf_append, natOf_zeros, hzero, zero_mul, zero_add]

/-- **An exponent moves the point behind the first digit.** -/
theorem exists_parts_scientific : ∃ p : Parts, p.negative = negative ∧
    p.exponent.isSome = true ∧ p.Writes ds scale (scientific ds scale) := by
  obtain ⟨c, ds, rfl⟩ := List.exists_cons_of_ne_nil hds.1
  have hall := hds.2
  rw [List.all_cons, Bool.and_eq_true] at hall
  have hlead : ((c :: ds).length : Int) + scale - 1 = ds.length + scale := by
    rw [List.length_cons]
    omega
  refine ⟨⟨negative, [c], ds, some (ds.length + scale)⟩, rfl, rfl,
    ⟨⟨by simp, by simpa using hall.1⟩, hall.2⟩, ?_, ?_, .inr rfl⟩
  · simp only [scientific, hlead]
    cases ds <;> simp [Parts.write, Parts.exponentText]
  · simp [Parts.numeral, Numeral.magnitude]

end

/-! ### Doubles -/

/-- The parts of a written double are read as the double again, if it is rounded. A zero in front
stands alone, and where whole numbers are written with a point there is a point or an exponent. -/
structure Parts.Spells (p : Parts) (l : Layout) (m : Nat) (e : Int) : Prop where
  proper : p.IsProper
  toDouble : IsRounded (.finite p.negative m e) → p.numeral.toDouble = .finite p.negative m e
  lead : p.whole.length = 1 ∨ p.whole.head? ≠ some '0'
  point : l.pointZero = true → p.places ≠ [] ∨ p.exponent.isSome = true

/-- Parts with the fewest digits of a double spell it. -/
theorem Parts.Writes.spells {p : Parts} {l : Layout} {m : Nat} {e : Int} {t : List Char} (hm : m ≠ 0)
    (hp : p.Writes (ofNat (shortest l.tie m e).digits) (shortest l.tie m e).scale t)
    (hpoint : l.pointZero = true → p.places ≠ [] ∨ p.exponent.isSome = true) : p.Spells l m e := by
  have hnear := isNear_shortest l.tie (e := e) hm
  have hvalue : p.numeral.magnitude = (shortest l.tie m e).value := by
    rw [hp.magnitude, natOf_ofNat, Digits.value]
  refine ⟨hp.proper, fun h => ?_, ?_, hpoint⟩
  · rw [toDouble_eq_ofRatio hp.proper.isDigit]
    refine Double.ofRatio_of_isNear h hm p.numeral.ratio_ne_zero ?_
    rwa [p.numeral.ratio_eq, hvalue]
  · have hdigits : (shortest l.tie m e).digits ≠ 0 := by
      intro hzero
      have hpos := hnear.pos hm
      rw [Digits.value, hzero] at hpos
      simp at hpos
    rcases hp.lead with hwhole | hhead
    · exact .inl (by rw [hwhole]; rfl)
    · exact .inr (hhead ▸ head?_ofNat hdigits)

/-- A zero in front of the point, with places or none, spells zero. -/
theorem Parts.spells_zero {negative : Bool} {places : List Char} {l : Layout} (e : Int)
    (hplaces : places = [] ∨ places = ['0']) (hpoint : l.pointZero = true → places ≠ []) :
    Parts.Spells ⟨negative, ['0'], places, none⟩ l 0 e := by
  refine ⟨⟨⟨by simp, rfl⟩, ?_⟩, fun h => ?_, .inl rfl, fun hl => .inl (hpoint hl)⟩
  · rcases hplaces with rfl | rfl <;> rfl
  · have he : e = -1074 := by
      cases h with
      | finite _ _ _ hfull => exact hfull.resolve_left (by decide)
    rw [he]
    rcases hplaces with rfl | rfl <;> rfl

/-- **A written double has parts that spell it.** Zero may lose its sign. -/
theorem exists_parts_write (l : Layout) (negative : Bool) (m : Nat) (e : Int) :
    ∃ p : Parts, p.negative = (if m = 0 then negative && l.signedZero else negative) ∧
      l.write negative m e = p.write ∧ p.Spells l m e := by
  rw [Layout.write]
  split
  · rename_i hm
    subst hm
    cases hpoint : l.pointZero with
    | true =>
      exact ⟨⟨negative && l.signedZero, ['0'], ['0'], none⟩, rfl,
        by simp [Layout.positional, hpoint, Parts.write, Parts.exponentText],
        Parts.spells_zero e (.inr rfl) fun _ => by simp⟩
    | false =>
      exact ⟨⟨negative && l.signedZero, ['0'], [], none⟩, rfl,
        by simp [Layout.positional, hpoint, Parts.write, Parts.exponentText],
        Parts.spells_zero e (.inl rfl) fun h => absurd (hpoint.symm.trans h) (by decide)⟩
  · rename_i hm
    have hdigits := isDigits_ofNat (shortest l.tie m e).digits
    have hboth (isPlain : Bool) : ∃ p : Parts, p.negative = negative ∧
        (if negative then ['-'] else []) ++ (if isPlain then
            l.positional (ofNat (shortest l.tie m e).digits) (shortest l.tie m e).scale
          else scientific (ofNat (shortest l.tie m e).digits) (shortest l.tie m e).scale) = p.write ∧
        p.Spells l m e := by
      cases isPlain with
      | true =>
        obtain ⟨p, rfl, -, hpoint, hp⟩ :=
          exists_parts_positional hdigits (shortest l.tie m e).scale negative l
        exact ⟨p, rfl, hp.text, hp.spells hm fun hl => .inl (hpoint hl)⟩
      | false =>
        obtain ⟨p, rfl, hexponent, hp⟩ :=
          exists_parts_scientific hdigits (shortest l.tie m e).scale negative
        exact ⟨p, rfl, hp.text, hp.spells hm fun _ => .inr hexponent⟩
    exact hboth _

/-- **What is written is read back,** in every layout; only zero may lose its sign. -/
theorem read?_write {l : Layout} {negative : Bool} {m : Nat} {e : Int}
    (h : IsRounded (.finite negative m e)) (hzero : m = 0 → l.signedZero = true) :
    read? (l.write negative m e) = some (.finite negative m e) := by
  obtain ⟨p, hnegative, htext, hp⟩ := exists_parts_write l negative m e
  have hsign : p.negative = negative := by
    rw [hnegative]
    split
    · rename_i hm
      rw [hzero hm, Bool.and_true]
    · rfl
  rw [htext, read?, Parts.numeral?_write hp.proper, Option.map_some, hp.toDouble (hsign ▸ h), hsign]

/-! ### The characters of written numbers -/

/-- An integer is written with the characters of numerals. -/
theorem all_ofInt (i : Int) : (ofInt i).all isNumeralChar = true := by
  have hdigits : (ofNat i.natAbs).all isNumeralChar = true :=
    List.all_eq_true.2 fun _ hc =>
      isNumeralChar_of_isDigit (List.all_eq_true.1 (isDigit_ofNat i.natAbs) _ hc)
  rw [ofInt]
  split
  · rw [List.all_cons, hdigits]
    rfl
  · exact hdigits

/-- Parts are written with the characters of numerals. -/
theorem Parts.IsProper.all_write {p : Parts} (h : p.IsProper) :
    p.write.all isNumeralChar = true := by
  have hdigits {ds : List Char} (hds : ds.all Char.isDigit = true) :
      ds.all isNumeralChar = true :=
    List.all_eq_true.2 fun _ hc => isNumeralChar_of_isDigit (List.all_eq_true.1 hds _ hc)
  have hsign : (if p.negative then ['-'] else []).all isNumeralChar = true := by
    cases p.negative <;> decide
  have hplaces : (if p.places = [] then [] else '.' :: p.places).all isNumeralChar = true := by
    split
    · rfl
    · rw [List.all_cons, hdigits h.places]
      rfl
  have hexponent : (exponentText p.exponent).all isNumeralChar = true := by
    cases p.exponent with
    | none => rfl
    | some k =>
      rw [exponentText, List.all_cons]
      split
      · rw [all_ofInt]
        rfl
      · rw [List.all_cons, all_ofInt]
        rfl
  rw [write, List.all_append, List.all_append, List.all_append, hsign, hdigits h.whole.2, hplaces,
    hexponent]
  rfl

/-- Finite numbers are written with the characters of numerals. -/
theorem all_write (l : Layout) (negative : Bool) (m : Nat) (e : Int) :
    (l.write negative m e).all isNumeralChar = true := by
  obtain ⟨p, -, htext, hp⟩ := exists_parts_write l negative m e
  rw [htext]
  exact hp.proper.all_write

end Decimal
end SearchFilter
