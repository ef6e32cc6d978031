/-
# Quoted text

A text is put between two quote characters, and a quote inside it is written
twice. SQL identifiers and PartiQL strings are written this way, with three
different quote characters.
-/

namespace SearchFilter
namespace Text

/-- The text with every quote character written twice. -/
def doubled (q : Char) (s : List Char) : List Char :=
  s.flatMap fun c => if c = q then [q, q] else [c]

/-- The text between quote characters, with those inside it written twice. -/
def enclose (q : Char) (s : List Char) : List Char := q :: (doubled q s ++ [q])

/-- Nothing is doubled in an empty text. -/
@[simp] theorem doubled_nil (q : Char) : doubled q [] = [] := rfl

/-- Characters are doubled one by one. -/
theorem doubled_cons (q c : Char) (s : List Char) :
    doubled q (c :: s) = (if c = q then [q, q] else [c]) ++ doubled q s := by
  simp [doubled]

/-- Two texts are doubled one after the other. -/
theorem doubled_append (q : Char) (s t : List Char) :
    doubled q (s ++ t) = doubled q s ++ doubled q t := by
  simp [doubled]

/-- A text without the quote character is enclosed as it stands. -/
theorem doubled_of_not_mem {q : Char} {s : List Char} (h : q ∉ s) : doubled q s = s := by
  induction s with
  | nil => rfl
  | cons c r ih =>
    simp only [List.mem_cons, not_or] at h
    rw [doubled_cons, if_neg (Ne.symm h.1), ih h.2]; rfl

end Text
end SearchFilter
