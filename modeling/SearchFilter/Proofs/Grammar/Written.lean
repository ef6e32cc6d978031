/-
# Clauses as they are written

A plain way to write clauses: words, phrases and groups, each perhaps with a field and a
sign, with one blank between any two of them.

| rank | text |
| --- | --- |
| `operand` | `word`, `"a phrase"`, `name:word`, `name:"a phrase"`, `(...)`, `name:(...)` |
| `factor` | an operand, perhaps with `+`, `-` or `!` in front |
| `conjunction` | factors with a blank between them, or `AND` between blanks |
| `disjunction` | conjunctions with `OR` between them |

Words are letters and digits, with stars behind a field. No word without a field and no
field is an operator. Keywords are written in any case, or as symbols.
-/

import SearchFilter.Proofs.Grammar.Lexeme

namespace SearchFilter
namespace Grammar

open Query (isSign)

/-- A word of letters and digits. -/
structure IsAlnum (w : List Char) : Prop where
  ne_nil : w ≠ []
  all : ∀ c ∈ w, c.isAlphanum = true

/-- Letters and digits are name characters. -/
theorem IsAlnum.isNamePart {w : List Char} (h : IsAlnum w) : ∀ c ∈ w, Text.isNamePart c = true :=
  fun c hc => by simp [Text.isNamePart, h.all c hc]

/-- A word of letters and digits is a term. -/
theorem IsAlnum.isTerm {w : List Char} (h : IsAlnum w) : IsTerm w :=
  isTerm_of_forall h.ne_nil fun c hc => not_delimiter_of_isNamePart (h.isNamePart c hc)

/-- A word of letters and digits starts with no sign. -/
theorem IsAlnum.isSign_head {w : List Char} (h : IsAlnum w) :
    ∀ c ∈ w.head?, isSign c = false :=
  fun c hc => isSign_of_isNamePart (h.isNamePart c (List.mem_of_mem_head? hc))

/-- A word of letters, digits and stars. -/
structure IsStarred (w : List Char) : Prop where
  ne_nil : w ≠ []
  all : ∀ c ∈ w, c.isAlphanum = true ∨ c = '*'

/-- A word of letters, digits and stars is a term. -/
theorem IsStarred.isTerm {w : List Char} (h : IsStarred w) : IsTerm w := by
  refine isTerm_of_forall h.ne_nil fun c hc => ?_
  rcases h.all c hc with hc | rfl
  · exact not_delimiter_of_isNamePart (by simp [Text.isNamePart, hc])
  · decide

/-- What a word is searched for as. -/
theorem IsAlnum.isStarred {w : List Char} (h : IsAlnum w) : IsStarred ('*' :: (w ++ ['*'])) where
  ne_nil := by simp
  all c hc := by
    simp only [List.mem_cons, List.mem_append, List.not_mem_nil, or_false] at hc
    rcases hc with hc | hc | hc
    · exact .inr hc
    · exact .inl (h.all c hc)
    · exact .inr hc

/-- A field that is no operator. -/
structure IsFree (field : List Char) : Prop where
  text : FieldText field
  free : isReserved field = false

/-- The text writes an atom, perhaps with a field. -/
inductive WritesLeaf : Option (List Char) → Atom → List Char → Prop
  | word {w : List Char} : IsAlnum w → isReserved w = false → WritesLeaf none (.term w) w
  | phrase {p u : List Char} : PhraseText p u → WritesLeaf none (.phrase p) u
  | fieldWord {field w : List Char} : IsFree field → IsStarred w →
    WritesLeaf (some field) (.term w) (field ++ ':' :: w)
  | fieldPhrase {field p u : List Char} : IsFree field → PhraseText p u →
    WritesLeaf (some field) (.phrase p) (field ++ ':' :: u)

/-- What a text can write. -/
inductive Rank where
  | operand
  | factor
  | conjunction
  | disjunction
deriving DecidableEq, Repr

/-- The text writes the clause. -/
inductive Writes : Rank → Clause → List Char → Prop
  | leaf {field : Option (List Char)} {a : Atom} {u : List Char} :
    WritesLeaf field a u → Writes .operand (.leaf field a) u
  | group {c : Clause} {s : List Char} :
    Writes .disjunction c s → Writes .operand c ('(' :: (s ++ [')']))
  | fieldGroup {field : List Char} {c : Clause} {s : List Char} :
    IsFree field → Writes .disjunction c s →
    Writes .operand (.fieldGroup field c) (field ++ ':' :: '(' :: (s ++ [')']))
  | unsigned {c : Clause} {s : List Char} : Writes .operand c s → Writes .factor c s
  | signed {p : Prefix} {x : Char} {b : List Char} {c : Clause} {s : List Char} :
    isSign x = true → (p = .must ↔ x = '+') → b = [] ∨ b = [' '] → Writes .operand c s →
    Writes .factor (c.prefixed [p]) (x :: (b ++ s))
  | factor {c : Clause} {s : List Char} : Writes .factor c s → Writes .conjunction c s
  | beside {c d : Clause} {s t : List Char} :
    Writes .conjunction c s → Writes .factor d t → Writes .conjunction (.and c d) (s ++ ' ' :: t)
  | and {c d : Clause} {s t k : List Char} :
    Writes .conjunction c s → IsKeyword "AND" "&&" k → Writes .factor d t →
    Writes .conjunction (.and c d) (s ++ ' ' :: (k ++ ' ' :: t))
  | conjunction {c : Clause} {s : List Char} : Writes .conjunction c s → Writes .disjunction c s
  | or {c d : Clause} {s t k : List Char} :
    Writes .disjunction c s → IsKeyword "OR" "||" k → Writes .conjunction d t →
    Writes .disjunction (.or c d) (s ++ ' ' :: (k ++ ' ' :: t))

end Grammar
end SearchFilter
