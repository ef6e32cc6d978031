/-
# Blank characters

A character is *blank* when it has the Unicode property `White_Space`
(version 15.1): 25 characters in ten ranges of code points.

| range | characters |
| --- | --- |
| `09`-`0D` | tab, line feed, vertical tab, form feed, carriage return |
| `20`, `85`, `A0` | space, next line, no-break space |
| `1680`, `2000`-`200A` | ogham space mark, the typographic spaces |
| `2028`, `2029`, `202F` | line and paragraph separator, narrow no-break space |
| `205F`, `3000` | mathematical space, ideographic space |

A text is blank when each of its characters is; trimming removes blanks at both
ends and nowhere else.
-/

namespace SearchFilter
namespace Text

/-- The code points of blank characters, as closed ranges in ascending order. -/
def blankRanges : List (Nat × Nat) :=
  [(0x09, 0x0D), (0x20, 0x20), (0x85, 0x85), (0xA0, 0xA0), (0x1680, 0x1680),
   (0x2000, 0x200A), (0x2028, 0x2029), (0x202F, 0x202F), (0x205F, 0x205F), (0x3000, 0x3000)]

/-- Whether a character has the property `White_Space`. -/
def isBlank (c : Char) : Bool := blankRanges.any fun r => r.1 ≤ c.toNat && c.toNat ≤ r.2

/-- Whether every character of a text is blank. -/
def allBlank (s : List Char) : Bool := s.all isBlank

/-- The text from its first character that is not blank. -/
def skipBlank (s : List Char) : List Char := s.dropWhile isBlank

/-- The text without the blanks at its two ends. -/
def trim (s : List Char) : List Char := (skipBlank (skipBlank s).reverse).reverse

/-- **The table holds 25 characters,** and its ranges are apart. -/
example : (blankRanges.map fun r => r.2 + 1 - r.1).sum = 25 ∧
    (blankRanges.zip blankRanges.tail).all (fun p => p.1.2 + 1 < p.2.1) = true := by decide

/-- A text is blank when each of its characters is. -/
theorem allBlank_iff {s : List Char} : allBlank s = true ↔ ∀ c ∈ s, isBlank c = true := by
  simp [allBlank]

/-- Skipping blanks makes no text longer. -/
theorem skipBlank_length_le (s : List Char) : (skipBlank s).length ≤ s.length :=
  (List.dropWhile_suffix isBlank).length_le

/-- What blanks in front of a text do not change holds of it when it holds behind its blanks. -/
theorem of_skipBlank {P : List Char → Prop}
    (hblank : ∀ {c : Char} {s : List Char}, isBlank c = true → P s → P (c :: s)) {s : List Char}
    (h : P (skipBlank s)) : P s := by
  induction s with
  | nil => exact h
  | cons c s ih =>
    by_cases hc : isBlank c = true
    · rw [skipBlank, List.dropWhile_cons_of_pos hc] at h
      exact hblank hc (ih h)
    · rwa [skipBlank, List.dropWhile_cons_of_neg hc] at h

/-- What is kept where a blank is dropped is kept where all of them are. -/
theorem skipBlank_of {P : List Char → Prop}
    (hblank : ∀ {c : Char} {s : List Char}, isBlank c = true → P (c :: s) → P s) {s : List Char}
    (h : P s) : P (skipBlank s) := by
  induction s with
  | nil => exact h
  | cons c s ih =>
    by_cases hc : isBlank c = true
    · rw [skipBlank, List.dropWhile_cons_of_pos hc]
      exact ih (hblank hc h)
    · rwa [skipBlank, List.dropWhile_cons_of_neg hc]

/-- Nothing is left of a text exactly when it is blank. -/
theorem skipBlank_eq_nil_iff {s : List Char} : skipBlank s = [] ↔ allBlank s = true := by
  induction s with
  | nil => simp [skipBlank, allBlank]
  | cons c r ih =>
    by_cases h : isBlank c = true
    · rw [skipBlank, List.dropWhile_cons_of_pos h, allBlank, List.all_cons, h, Bool.true_and]
      exact ih
    · simp [skipBlank, allBlank, h]

end Text
end SearchFilter
