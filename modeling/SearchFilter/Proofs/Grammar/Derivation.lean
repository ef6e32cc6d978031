/-
# Derivations

What the grammar says about texts, apart from the order in which its readers try
things. `Reads c s r` holds when the clause `c` can be derived from the front of `s`
and `r` is left:

| rule | text | clause |
| --- | --- | --- |
| `leaf` | an atom, perhaps with a field, and suffixes | the atom |
| `group` | `(`, a query, `)` and suffixes | the query |
| `fieldGroup` | a field, `:`, `(`, a query, `)` and suffixes | the query under the field |
| `prefixed` | prefixes and a clause | the clause under one prefix at most |
| `and`, `or` | two clauses with a keyword between them | both |

Blanks may stand around each of them.
-/

import SearchFilter.Grammar.Position
import SearchFilter.Proofs.Query.Role

namespace SearchFilter
namespace Grammar

open Query (AtBoundary isSign)

/-! ### Words -/

/-- A term is cut off in full, and goes up to a blank, a delimiter that is not the
backslash of a pair, or the end. -/
theorem spanTerm_spec {s w r : List Char} (h : spanTerm s = (w, r)) :
    s = w ++ r ∧ spanTerm w = (w, []) ∧
      (∀ c ∈ r.head?, Text.isBlank c = true ∨ isDelimiter c = true) ∧
      ∀ c t, r ≠ '\\' :: c :: t := by
  fun_induction spanTerm s generalizing w r with
  | case1 => cases h; simp [spanTerm]
  | case2 c t word rest hcut ih =>
    obtain ⟨rfl, rfl⟩ := Prod.mk.inj h
    obtain ⟨h1, h2, h3⟩ := ih hcut
    exact ⟨by rw [h1]; rfl, by rw [spanTerm, h2], h3⟩
  | case3 c t hne hb =>
    obtain ⟨rfl, rfl⟩ := Prod.mk.inj h
    refine ⟨rfl, rfl, by simpa using hb, ?_⟩
    rintro d t' he
    obtain ⟨rfl, rfl⟩ := List.cons.inj he
    exact hne d t' rfl rfl
  | case4 c t hne hb word rest hcut ih =>
    obtain ⟨rfl, rfl⟩ := Prod.mk.inj h
    obtain ⟨h1, h2, h3⟩ := ih hcut
    refine ⟨by rw [h1]; rfl, ?_, h3⟩
    rw [spanTerm, if_neg hb, h2]
    intro d q hc hq
    subst hq
    rw [h1] at hne
    exact hne d _ hc rfl

/-- A term, with the backslashes of its pairs. -/
structure IsTerm (u : List Char) : Prop where
  ne_nil : u ≠ []
  span : spanTerm u = (u, [])

/-- A term that is a word in any case, or a symbol. -/
structure IsKeyword (word symbol : String) (k : List Char) : Prop where
  term : IsTerm k
  same : Text.sameWord k word.toList = true ∨ k = symbol.toList

/-- The word `AND` is the keyword that it names. -/
theorem isKeyword_and : IsKeyword "AND" "&&" "AND".toList :=
  ⟨⟨by decide, by decide⟩, .inl (by decide)⟩

/-- The word `OR` is the keyword that it names. -/
theorem isKeyword_or : IsKeyword "OR" "||" "OR".toList :=
  ⟨⟨by decide, by decide⟩, .inl (by decide)⟩

/-- The word `TO` is the keyword that it names. -/
theorem isKeyword_to : IsKeyword "TO" "TO" "TO".toList :=
  ⟨⟨by decide, by decide⟩, .inl (by decide)⟩

/-- A phrase with its quotes, and what it says. -/
inductive PhraseText : List Char → List Char → Prop
  | mk {raw inside : List Char} :
    spanQuoted raw = (inside, []) → PhraseText inside ('"' :: (raw ++ ['"']))

/-- A field name, with a part behind a point where it has one. -/
inductive FieldText : List Char → Prop
  | plain {name : List Char} : Text.isIdentifier name = true → FieldText name
  | dotted {name part : List Char} : Text.isIdentifier name = true → part ≠ [] →
    part.all Text.isNamePart = true → FieldText (name ++ '.' :: part)

/-- A bound of a range. -/
inductive BoundText : Option (List Char) → List Char → Prop
  | phrase {p u : List Char} : PhraseText p u → BoundText (some p) u
  | unlimited : BoundText none ['*']
  | term {u : List Char} : IsTerm u → u ≠ ['*'] → BoundText (some (Text.unescape u)) u

/-- What a comparison compares with. -/
inductive OperandText : Operand → List Char → Prop
  | quoted {p u : List Char} : PhraseText p u → OperandText (.quoted p) u
  | raw {u : List Char} : IsTerm u → OperandText (.raw u) u

/-- An atom. -/
inductive AtomText : Atom → List Char → Prop
  | term {u : List Char} : IsTerm u → AtomText (.term u) u
  | phrase {p u : List Char} : PhraseText p u → AtomText (.phrase p) u
  | range {opening closing : Char} {inclusive : Bool} {b₁ b₂ b₃ b₄ x y k : List Char}
      {min max : Option (List Char)} :
    (opening, closing, inclusive) ∈ [('[', ']', true), ('\x7b', '\x7d', false)] →
    Text.allBlank b₁ = true → BoundText min x → Text.allBlank b₂ = true →
    IsKeyword "TO" "TO" k → Text.allBlank b₃ = true → BoundText max y →
    Text.allBlank b₄ = true →
    AtomText (.range min max inclusive)
      (opening :: (b₁ ++ (x ++ (b₂ ++ (k ++ (b₃ ++ (y ++ (b₄ ++ [closing]))))))))
  | compare {op : Comparison} {operand : Operand} {u : List Char} :
    OperandText operand u → AtomText (.compare op operand) (op.sign.toList ++ u)

/-- An atom with its field. Without a field there are no comparisons, and a term is no
operator and does not start with a sign. -/
inductive LeafText : Option (List Char) → Atom → List Char → Prop
  | fielded {field u : List Char} {a : Atom} :
    FieldText field → AtomText a u → LeafText (some field) a (field ++ ':' :: u)
  | term {u : List Char} : IsTerm u → isReserved u = false →
    (∀ c ∈ u.head?, isSign c = false) → LeafText none (.term u) u
  | phrase {p u : List Char} : AtomText (.phrase p) u → LeafText none (.phrase p) u
  | range {min max : Option (List Char)} {inclusive : Bool} {u : List Char} :
    AtomText (.range min max inclusive) u → LeafText none (.range min max inclusive) u

/-- A fuzzy suffix, or nothing. -/
inductive FuzzyText : Option (Option Nat) → List Char → Prop
  | none : FuzzyText none []
  | anyDistance : FuzzyText (some none) ['~']
  | within {ds : List Char} : ds.all Char.isDigit = true → Decimal.natOf ds < Nat.pow 2 32 →
    FuzzyText (some (some (Decimal.natOf ds))) ('~' :: ds)

/-- A boost suffix, or nothing. -/
inductive BoostText : Option Double → List Char → Prop
  | none : BoostText none []
  | power {ds : List Char} : (ds.all fun c => c.isDigit || c == '.') = true →
    BoostText (some ((Decimal.read? ds).getD .nan)) ('^' :: ds)

/-- The suffixes of a clause. -/
inductive SuffixText : Option (Option Nat) → Option Double → List Char → Prop
  | mk {fuzzy : Option (Option Nat)} {boost : Option Double} {u v : List Char} :
    FuzzyText fuzzy u → BoostText boost v → SuffixText fuzzy boost (u ++ v)

/-! ### Clauses -/

/-- Prefixes off the front of a text. -/
inductive Signs : List Prefix → List Char → List Char → Prop
  | nil (s : List Char) : Signs [] s s
  | blank {ps : List Prefix} {b : Char} {s r : List Char} :
    Text.isBlank b = true → Signs ps s r → Signs ps (b :: s) r
  | sign {ps : List Prefix} {p : Prefix} {c : Char} {s r : List Char} :
    isSign c = true → (p = .must ↔ c = '+') → Signs ps s r → Signs (p :: ps) (c :: s) r
  | word {ps : List Prefix} {k s r : List Char} :
    IsKeyword "NOT" "!" k → spanTerm (k ++ s) = (k, s) → Signs ps s r →
    Signs (.mustNot :: ps) (k ++ s) r

/-- A keyword with blanks around it off the front of a text. -/
inductive Joins (word symbol : String) : List Char → List Char → Prop
  | mk {b₁ b₂ k s : List Char} : Text.allBlank b₁ = true → IsKeyword word symbol k →
    spanTerm (k ++ (b₂ ++ s)) = (k, b₂ ++ s) → Text.allBlank b₂ = true →
    Joins word symbol (b₁ ++ (k ++ (b₂ ++ s))) s

/-- The clause can be derived from the front of a text, and the rest is left. -/
inductive Reads : Clause → List Char → List Char → Prop
  | leaf {field : Option (List Char)} {a : Atom} {fuzzy : Option (Option Nat)}
      {boost : Option Double} {u z r : List Char} :
    LeafText field a u → SuffixText fuzzy boost z → AtBoundary r →
    Reads ((Clause.leaf field a).suffixed fuzzy boost) (u ++ (z ++ r)) r
  | group {c : Clause} {fuzzy : Option (Option Nat)} {boost : Option Double} {s z r : List Char} :
    Reads c s (')' :: (z ++ r)) → SuffixText fuzzy boost z → AtBoundary r →
    Reads (c.suffixed fuzzy boost) ('(' :: s) r
  | fieldGroup {field : List Char} {c : Clause} {fuzzy : Option (Option Nat)}
      {boost : Option Double} {s z r : List Char} :
    FieldText field → Reads c s (')' :: (z ++ r)) → SuffixText fuzzy boost z → AtBoundary r →
    Reads ((Clause.fieldGroup field c).suffixed fuzzy boost) (field ++ ':' :: '(' :: s) r
  | prefixed {ps : List Prefix} {c : Clause} {s m r : List Char} :
    Signs ps s m → Reads c m r → Reads (c.prefixed ps) s r
  | before {c : Clause} {b : Char} {s r : List Char} :
    Text.isBlank b = true → Reads c s r → Reads c (b :: s) r
  | behind {c : Clause} {b : Char} {s r : List Char} :
    Text.isBlank b = true → Reads c s (b :: r) → Reads c s r
  | beside {c d : Clause} {s m r : List Char} :
    Reads c s m → Reads d m r → Reads (.and c d) s r
  | and {c d : Clause} {s m m' r : List Char} :
    Reads c s m → Joins "AND" "&&" m m' → Reads d m' r → Reads (.and c d) s r
  | or {c d : Clause} {s m m' r : List Char} :
    Reads c s m → Joins "OR" "||" m m' → Reads d m' r → Reads (.or c d) s r

end Grammar
end SearchFilter
