/-
# Binding as a relation

What a clause is bound as is told by one rule for each of its forms: a leaf with a field of its
own or of its group tests that column, a word without either is kept as a bare value, and all
else is bound part by part. What binding preserves is shown by induction on these rules.

| | rules for |
| --- | --- |
| `Atom.tests_filter` | an atom with a column |
| `Clause.lower_eq_ok_iff` | a clause |
-/

import SearchFilter.Grammar.Lowering
import SearchFilter.Proofs.Outcome
import SearchFilter.Proofs.Tree.Predicates

namespace SearchFilter
namespace Grammar

/-- How an atom tests a column: a term by the metacharacters that stand in it bare. -/
inductive Atom.Tests (k : Column) : Atom → Filter → Prop
  | like {raw : List Char} (star : Text.hasBare '*' raw = true) :
    Tests k (.term raw) (.like k (String.ofList raw))
  | wild {raw : List Char} (star : Text.hasBare '*' raw = false) (mark : Text.hasBare '?' raw = true) :
    Tests k (.term raw) (.wild k (String.ofList raw))
  | equals {raw : List Char} (star : Text.hasBare '*' raw = false)
    (mark : Text.hasBare '?' raw = false) :
    Tests k (.term raw) (.equals k (textValue (Text.unescape raw)))
  | phrase {s : List Char} : Tests k (.phrase s) (.equals k (textValue s))
  | range {min max : Option (List Char)} {inclusive : Bool} :
    Tests k (.range min max inclusive) (.range k (min.map textValue) (max.map textValue) inclusive)
  | compare {op : Comparison} {operand : Operand} :
    Tests k (.compare op operand) (.compare op k operand.value)

/-- Every atom tests a column as its filter does. -/
theorem Atom.tests_filter (k : Column) (a : Atom) : a.Tests k (a.filter k) := by
  cases a with
  | term raw =>
    rw [filter]
    split
    · rename_i hstar
      exact .like hstar
    · rename_i hstar
      split
      · rename_i hmark
        exact .wild (Bool.eq_false_iff.2 hstar) hmark
      · rename_i hmark
        exact .equals (Bool.eq_false_iff.2 hstar) (Bool.eq_false_iff.2 hmark)
  | phrase s => exact .phrase
  | range min max inclusive => exact .range
  | compare op operand => exact .compare

/-- An atom tests a column in one way. -/
theorem Atom.Tests.eq_filter {k : Column} {a : Atom} {f : Filter} (h : a.Tests k f) :
    f = a.filter k := by
  cases h <;> simp [filter, *]

/-- How an atom tests a column is a predicate. -/
theorem Atom.Tests.isPredicate {k : Column} {a : Atom} {f : Filter} (h : a.Tests k f) :
    f.isPredicate = true := by
  cases h <;> rfl

/-- What a clause is bound as, where a column may be given for atoms without a field. -/
inductive Clause.Lowers : Option Column → Clause → Filter → Prop
  | own {column : Option Column} {field : List Char} {a : Atom} {f : Filter} :
    a.Tests (columnOf field) f → Lowers column (.leaf (some field) a) f
  | given {k : Column} {a : Atom} {f : Filter} : a.Tests k f → Lowers (some k) (.leaf none a) f
  | bareTerm {raw : List Char} :
    Lowers none (.leaf none (.term raw)) (.literal (textValue (Text.unescape raw)))
  | barePhrase {s : List Char} : Lowers none (.leaf none (.phrase s)) (.literal (textValue s))
  | fieldGroup {column : Option Column} {field : List Char} {c : Clause} {f : Filter} :
    Lowers (some (columnOf field)) c f →
      Lowers column (.fieldGroup field c) (.equals (columnOf field) (.group f))
  | and {column : Option Column} {c d : Clause} {f g : Filter} :
    Lowers column c f → Lowers column d g → Lowers column (.and c d) (.and f g)
  | or {column : Option Column} {c d : Clause} {f g : Filter} :
    Lowers column c f → Lowers column d g → Lowers column (.or c d) (.or f g)
  | must {column : Option Column} {c : Clause} {f : Filter} :
    Lowers column c f → Lowers column (.must c) (.must f)
  | mustNot {column : Option Column} {c : Clause} {f : Filter} :
    Lowers column c f → Lowers column (.mustNot c) (.mustNot f)
  | fuzzy {column : Option Column} {c : Clause} {f : Filter} {distance : Option Nat} :
    Lowers column c f → Lowers column (.fuzzy c distance) (.fuzzy f distance)
  | boost {column : Option Column} {c : Clause} {f : Filter} {power : Double} :
    Lowers column c f → Lowers column (.boost c power) (.boost f power)

namespace Clause

variable {column : Option Column} {c : Clause} {f : Filter}

/-- What a clause is lowered to follows from the rules. -/
theorem lowers_of_lower (h : c.lower column = .ok f) : c.Lowers column f := by
  induction c generalizing column f with
  | leaf field a =>
    cases field with
    | some field =>
      obtain rfl := Except.ok.inj h
      exact .own (a.tests_filter _)
    | none =>
      cases column with
      | some k =>
        obtain rfl := Except.ok.inj h
        exact .given (a.tests_filter k)
      | none =>
        cases a with
        | term raw => obtain rfl := Except.ok.inj h; exact .bareTerm
        | phrase s => obtain rfl := Except.ok.inj h; exact .barePhrase
        | range | compare => cases h
  | fieldGroup field c ih =>
    obtain ⟨g, hg, h⟩ := bind_eq_ok.1 h
    obtain rfl := Except.ok.inj h
    exact .fieldGroup (ih hg)
  | and c d ihc ihd | or c d ihc ihd =>
    obtain ⟨f, hf, h⟩ := bind_eq_ok.1 h
    obtain ⟨g, hg, h⟩ := bind_eq_ok.1 h
    obtain rfl := Except.ok.inj h
    constructor
    · exact ihc hf
    · exact ihd hg
  | must c ih | mustNot c ih | fuzzy c _ ih | boost c _ ih =>
    obtain ⟨g, hg, h⟩ := bind_eq_ok.1 h
    obtain rfl := pure_eq_ok.1 h
    constructor
    exact ih hg

/-- **A clause is bound by the rules and in no other way.** -/
theorem lower_eq_ok_iff : c.lower column = .ok f ↔ c.Lowers column f := by
  refine ⟨lowers_of_lower, fun h => ?_⟩
  induction h with
  | own ha | given ha => rw [ha.eq_filter]; rfl
  | bareTerm | barePhrase => rfl
  | fieldGroup _ ih | must _ ih | mustNot _ ih | fuzzy _ ih | boost _ ih => rw [lower, ih]; rfl
  | and _ _ ihc ihd | or _ _ ihc ihd => rw [lower, ihc, ihd]; rfl

end Clause
end Grammar
end SearchFilter
