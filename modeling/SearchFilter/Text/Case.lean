/-
# Letter case

Words are compared without regard to the case of the letters `A`-`Z`; no other
character has a second form here.
-/

namespace SearchFilter
namespace Text

/-- The text with the letters `A`-`Z` in lower case. -/
def lower (s : List Char) : List Char := s.map Char.toLower

/-- Whether two texts differ at most in the case of the letters `A`-`Z`. -/
def sameWord (s t : List Char) : Bool := lower s == lower t

/-- A digit has no second form. -/
theorem toLower_of_isDigit {c : Char} (h : c.isDigit = true) : c.toLower = c := by
  rw [Char.isDigit, Bool.and_eq_true, decide_eq_true_eq, decide_eq_true_eq] at h
  exact dif_neg fun hc => absurd (UInt32.le_trans hc.1 h.2) (by decide)

end Text
end SearchFilter
