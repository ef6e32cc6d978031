/-
# Numbers as numerals

The text of a finite number is a numeral: a minus sign or none, digits, and perhaps a
point with digits behind it. There is a digit on either side of the point, and no
exponent, so that a number which is written between other lexemes is read as one.
-/

import SearchFilter.Proofs.Number.Notation
import SearchFilter.Proofs.Render.Lexeme

namespace SearchFilter

open Lexeme

/-- Parts without an exponent are a numeral. -/
theorem isNumeral_parts {p : Decimal.Parts} (h : p.IsProper) (hplain : p.exponent = none) :
    IsNumeral p.write := by
  have hsign : (if p.negative then ['-'] else []) = [] ∨
      (if p.negative then ['-'] else []) = ['-'] := by
    cases p.negative
    · exact .inl rfl
    · exact .inr rfl
  refine ⟨_, p.whole, if p.places = [] then [] else '.' :: p.places, hsign, h.whole, ?_, ?_⟩
  · by_cases hplaces : p.places = []
    · exact .inl (if_pos hplaces)
    · exact .inr ⟨p.places, ⟨hplaces, h.places⟩, if_neg hplaces⟩
  · rw [Decimal.Parts.write, hplain, Decimal.Parts.exponentText, List.append_nil]

/-- **Without exponents a finite number is written as a numeral.** -/
theorem isNumeral_write {l : Decimal.Layout} (hplain : l.plain = none) (negative : Bool)
    (mantissa : Nat) (exponent : Int) : IsNumeral (l.write negative mantissa exponent) := by
  have hpositional {ds : List Char} (hds : IsDigits ds) (scale : Int) (b : Bool) :
      IsNumeral ((if b then ['-'] else []) ++ l.positional ds scale) := by
    obtain ⟨p, rfl, hexponent, -, hp⟩ := Decimal.exists_parts_positional hds scale b l
    rw [hp.text]
    exact isNumeral_parts hp.proper hexponent
  rw [Decimal.Layout.write]
  split
  · exact hpositional ⟨by simp, by decide⟩ 0 (negative && l.signedZero)
  · simp only [hplain, if_true]
    exact hpositional (isDigits_ofNat _) _ negative

/-- The digits of an integer are a numeral. -/
theorem isNumeral_ofInt (i : Int) : IsNumeral (Decimal.ofInt i) := by
  rw [← Decimal.Parts.write_ofInt]
  exact isNumeral_parts (Decimal.Parts.isProper_ofInt i) rfl

/-- A finite number is written as a numeral. -/
theorem isNumeral_numberText {x : Double} (h : x.isFinite = true) :
    IsNumeral (PartiQL.numberText x).toList := by
  rw [PartiQL.numberText]
  split
  · rw [String.toList_ofList]
    exact isNumeral_ofInt _
  · cases x with
    | finite negative mantissa exponent =>
      rw [RenderError.numberText, String.toList_ofList]
      exact isNumeral_write rfl negative mantissa exponent
    | infinite negative => cases h
    | nan => cases h

end SearchFilter
