/-
# Queries that the grammar refuses

In a query that names its fields no word is spread over the implicit fields. All that the
expansion does to it is to put other blanks between its tokens: the compiler reads it as if
there were a blank behind each closing parenthesis (`grammar_expand_iff`). So what the grammar
refuses is refused by the compiler, unless two clauses stand together without a blank:

| query | implicit fields | grammar | compiler |
| --- | --- | --- | --- |
| `f:(a)) g:b` | any | refuses it | refuses it |
| `f:(a)g:b` | none | refuses it | refuses it |
| `f:(a)g:b` | `f` | refuses it | reads `f:(a) g:b` |
-/

import SearchFilter.Proofs.Compiler.Refusal
import SearchFilter.Proofs.Grammar.Rejoining

namespace SearchFilter
namespace Compiler

open Query

variable {k : Compiler} {q : String}

/-- **Behind the expansion a query that names its fields is read as if it were parted,** where
there are implicit fields. -/
theorem grammar_expand_iff (hnames : k.implicitNames ≠ [])
    (hfields : ∀ t ∈ ungrouped none [] (tokens q.toList), t.kind ≠ .term ∧ t.kind ≠ .phrase)
    {column : Option Column} {f : Option Filter} :
    Grammar.filter? column (k.expand q) = .ok f ↔
      Grammar.filter? column (String.ofList (parted .bare q.toList)) = .ok f := by
  have hloose :
      Grammar.Loose (String.ofList (parted .bare q.toList)).toList (k.expand q).toList := by
    rw [toList_expand_of_ne_nil hnames, String.toList_ofList, ← Grammar.tokens_parted]
    refine Grammar.loose_expandFrom (Grammar.isParted_parted .bare _) ?_
    rwa [Grammar.tokens_parted]
  exact ⟨Grammar.filter?_of_loose (Std.Symm.symm _ _ hloose), Grammar.filter?_of_loose hloose⟩

/-- **A query that names its fields and that the grammar refuses stays refused,** unless some
field is implicit and text stands right behind a closing parenthesis. Then it may be accepted
as the query with a blank there. -/
theorem filter?_of_refused {e : Grammar.SyntaxError}
    (hfields : ∀ t ∈ ungrouped none [] (tokens q.toList), t.kind ≠ .term ∧ t.kind ≠ .phrase)
    (hrefused : Grammar.filter? k.defaultColumn? q = .error e) :
    (∃ e, k.filter? q = .error e) ∨
      k.schema.implicitFields ≠ [] ∧ isParted .bare q.toList = false ∧
        ∃ f, k.filter? q = .ok f ∧ Grammar.filter? k.defaultColumn?
          (String.ofList (parted .bare q.toList)) = .ok f := by
  cases h : k.filter? q with
  | error e => exact .inl ⟨e, rfl⟩
  | ok f =>
    have hgrammar := (passed_of_filter? h).grammar
    have hnames : k.implicitNames ≠ [] := fun hnil => by
      rw [expand_of_nil hnil, hrefused] at hgrammar
      cases hgrammar
    have hread := (grammar_expand_iff hnames hfields).1 hgrammar
    refine .inr ⟨fun hnil => hnames (implicitNames_eq_nil_iff.2 hnil), ?_, f, rfl, hread⟩
    -- a parted query is read as it is, and that is refused
    refine Bool.eq_false_iff.2 fun hparted => ?_
    rw [Grammar.parted_eq_self hparted, String.ofList_toList, hrefused] at hread
    cases hread

/-- A parenthesis too many behind a group is refused with implicit fields as without. -/
theorem error_of_stray_parenthesis :
    let k := sample 2 ⟨100, 9, 9⟩ (by decide)
    let q := "f:(a OR (b)) AND (g:c))"
    (∀ t ∈ ungrouped none [] (tokens q.toList), t.kind ≠ .term ∧ t.kind ≠ .phrase) ∧
      (∃ e, Grammar.filter? k.defaultColumn? q = .error e) ∧ ∃ e, k.filter? q = .error e := by
  intro k q
  have hfields : ∀ t ∈ ungrouped none [] (tokens q.toList), t.kind ≠ .term ∧ t.kind ≠ .phrase := by
    decide +kernel
  obtain ⟨e, he⟩ : ∃ e, Grammar.filter? k.defaultColumn? q = .error e :=
    exists_of_toOption_eq_none (by decide +kernel)
  refine ⟨hfields, ⟨e, he⟩, (filter?_of_refused hfields he).resolve_right ?_⟩
  rintro ⟨-, hparted, -⟩
  exact absurd hparted (by decide +kernel)

/-- Two clauses without a blank between them, which the grammar refuses: they are accepted. -/
theorem exists_filter?_of_glued :
    let k := sample 2 ⟨100, 9, 9⟩ (by decide)
    let q := "f:(a)g:b"
    (∀ t ∈ ungrouped none [] (tokens q.toList), t.kind ≠ .term ∧ t.kind ≠ .phrase) ∧
      (∃ e, Grammar.filter? k.defaultColumn? q = .error e) ∧ ∃ f, k.filter? q = .ok (some f) := by
  intro k q
  exact ⟨by decide +kernel, exists_of_toOption_eq_none (by decide +kernel),
    exists_of_isSome_join (by decide +kernel)⟩

end Compiler
end SearchFilter
