/-
# Identifiers

An identifier is a letter `A`-`Z`, `a`-`z` or an underscore, followed by any
number of those and of the digits `0`-`9`. Nothing else may stand unquoted in a
rendered fragment.
-/

import SearchFilter.Text.Blank

namespace SearchFilter
namespace Text

/-- A letter or an underscore. -/
def isNameStart (c : Char) : Bool := c.isAlpha || c == '_'

/-- A letter, a digit or an underscore. -/
def isNamePart (c : Char) : Bool := c.isAlphanum || c == '_'

/-- Whether a text is an identifier. -/
def isIdentifier : List Char → Bool
  | [] => false
  | c :: r => isNameStart c && r.all isNamePart

/-- What a name can start with can also stand inside it. -/
theorem isNamePart_of_isNameStart {c : Char} (h : isNameStart c = true) : isNamePart c = true := by
  simp only [isNameStart, isNamePart, Char.isAlphanum, Bool.or_eq_true] at h ⊢
  rcases h with h | h
  · exact .inl (.inl h)
  · exact .inr h

/-- Every character of an identifier is a name character. -/
theorem isNamePart_of_mem {s : List Char} (h : isIdentifier s = true) {c : Char} (hc : c ∈ s) :
    isNamePart c = true := by
  cases s with
  | nil => simp at hc
  | cons d r =>
    simp only [isIdentifier, Bool.and_eq_true, List.all_eq_true] at h
    rcases List.mem_cons.1 hc with rfl | hc
    · exact isNamePart_of_isNameStart h.1
    · exact h.2 c hc

/-- Other characters are not in an identifier. -/
theorem not_mem_of_not_isNamePart {s : List Char} (h : isIdentifier s = true) {c : Char}
    (hc : isNamePart c = false) : c ∉ s := by
  intro hmem
  rw [isNamePart_of_mem h hmem] at hc
  cases hc

/-- No identifier is empty. -/
theorem isIdentifier_ne_nil {s : List Char} (h : isIdentifier s = true) : s ≠ [] := by
  rintro rfl; simp [isIdentifier] at h

/-- No name character is blank. -/
theorem isBlank_eq_false_of_isNamePart {c : Char} (h : isNamePart c = true) : isBlank c = false := by
  have hn : (48 ≤ c.toNat ∧ c.toNat ≤ 57) ∨ (65 ≤ c.toNat ∧ c.toNat ≤ 90) ∨ c.toNat = 95 ∨
      (97 ≤ c.toNat ∧ c.toNat ≤ 122) := by
    delta isNamePart Char.isAlphanum Char.isAlpha Char.isUpper Char.isLower Char.isDigit at h
    simp only [Bool.or_eq_true, Bool.and_eq_true, decide_eq_true_eq, beq_iff_eq, ge_iff_le,
      UInt32.le_iff_toNat_le] at h
    rcases h with ((h | h) | h) | h
    · exact .inr (.inl h)
    · exact .inr (.inr (.inr h))
    · exact .inl h
    · subst h; exact .inr (.inr (.inl rfl))
  generalize hc : c.toNat = n at hn
  simp only [isBlank, blankRanges, List.any_cons, List.any_nil, hc, Bool.or_eq_false_iff,
    Bool.and_eq_false_iff, decide_eq_false_iff_not]
  refine ⟨?_, ?_, ?_, ?_, ?_, ?_, ?_, ?_, ?_, ?_, trivial⟩ <;> omega

end Text
end SearchFilter
