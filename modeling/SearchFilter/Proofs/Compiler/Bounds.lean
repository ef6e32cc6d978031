/-
# The limits bound the filter

The limits are measured on the tokens of a query, before the grammar is looked at.
They bound the filter that comes out (`bounds_of_filter?`):

| limit | bounds |
| --- | --- |
| number of terms | the leaves, for each term as many as there are implicit fields |
| depth of brackets | the depth of groups with a field |

The one exception is a query whose last token opens a phrase that the copies of the
token close for each other: the grammar then finds leaves and groups in what the
tokens took for the inside of a phrase.
-/

import SearchFilter.Proofs.Compiler.Refusal

namespace SearchFilter
namespace Compiler

open Query

/-- The roles of the expanded text mirror the tokens of an accepted query. -/
theorem mirrors_of_filter? {c : Compiler} {q : String} {f : Option Filter}
    (h : c.filter? q = .ok f)
    (hlast : ∀ t ∈ lastSpread? none [] (tokens q.toList), ¬ c.PairsUp t) :
    Mirrors (max 1 c.schema.implicitFields.length) (tokens q.toList)
      (roles (c.expand q).toList) := by
  by_cases hne : c.implicitNames = []
  · have hfinished := (Grammar.accepted_of_filter? (passed_of_filter? h).grammar).1
    rw [implicitNames_eq_nil_iff.1 hne]
    rw [expand_of_nil hne] at hfinished ⊢
    exact mirrors_self hfinished
  · have hsurvives : Survives none [] q.toList := by
      by_cases hq : IsFinished q.toList
      · exact .inl hq
      · obtain ⟨t, ht, hmends⟩ := mends_of_filter? h hq
        exact .inr ⟨t, ht, (hmends.resolve_right (hlast t ht)).2⟩
    have hlen : max 1 c.schema.implicitFields.length = c.implicitNames.length := by
      have := List.length_pos_iff.2 hne
      rw [length_implicitNames] at this ⊢
      omega
    rw [toList_expand_of_ne_nil hne, hlen]
    exact mirrors_expandFrom (fun _ hf => fieldText_of_mem_implicitNames hf) hne _ _ _ hsurvives

/-- **The limits bound the filter,** unless the copies of the last token pair up. -/
theorem bounds_of_filter? {c : Compiler} {q : String} {f : Filter}
    (h : c.filter? q = .ok (some f))
    (hlast : ∀ t ∈ lastSpread? none [] (tokens q.toList), ¬ c.PairsUp t) :
    f.leafCount ≤ c.limits.terms * max 1 c.schema.implicitFields.length ∧
      f.groupDepth ≤ c.limits.depth := by
  have hpassed := passed_of_filter? h
  have hmirrors := mirrors_of_filter? h hlast
  obtain ⟨hleaves, hdepth⟩ := Grammar.measures_of_filter? hpassed.grammar
  have hfault := (Grammar.accepted_of_filter? hpassed.grammar).2.2
  have hterms : (tokens q.toList).countP (fun t => t.kind.isTerm) ≤ c.limits.terms :=
    hpassed.size .terms
  have hmost : (Depth.ofTokens (tokens q.toList)).most ≤ c.limits.depth := hpassed.size .depth
  constructor
  · calc f.leafCount
      _ ≤ (roles (c.expand q).toList).count .leaf := hleaves
      _ ≤ (tokens q.toList).countP (fun t => t.kind.isTerm) * _ := hmirrors.count_le
      _ ≤ c.limits.terms * _ := Nat.mul_le_mul_right _ hterms
  · calc f.groupDepth
      _ ≤ Role.reach 0 (roles (c.expand q).toList) := hdepth
      _ ≤ (Depth.ofTokens (tokens q.toList)).most := hmirrors.reach_le hfault ⟨0, 0⟩
      _ ≤ c.limits.depth := hmost

/-- One group within a limit of one, and five leaves for three terms in two fields. -/
theorem bounds_of_group :
    ∃ f, (sample 2 ⟨100, 1, 3⟩ (by decide)).filter? "a \"b c\" f:(d)" = .ok (some f) ∧
      f.leafCount ≤ 3 * 2 ∧ f.groupDepth ≤ 1 := by
  have hleaves : (sample 2 ⟨100, 1, 3⟩ (by decide)).measured "a \"b c\" f:(d)" Filter.leafCount =
      some 5 := by decide +kernel
  obtain ⟨f, hf, -⟩ := exists_of_measured hleaves
  exact ⟨f, hf, bounds_of_filter? hf (by decide +kernel)⟩

/-- Two filters beyond the limits: one term with four leaves in two fields, and two
groups within each other where brackets may be one deep. -/
theorem exists_filter?_beyond_limits :
    (∃ f, (sample 2 ⟨100, 1, 1⟩ (by decide)).filter? "\" a b c" = .ok (some f) ∧
      ¬ f.leafCount ≤ 1 * 2) ∧
    ∃ f, (sample 2 ⟨100, 1, 1⟩ (by decide)).filter? "\" f:(f:(a))" = .ok (some f) ∧
      ¬ f.groupDepth ≤ 1 := by
  have hleaves : (sample 2 ⟨100, 1, 1⟩ (by decide)).measured "\" a b c" Filter.leafCount =
      some 4 := by decide +kernel
  have hdepth : (sample 2 ⟨100, 1, 1⟩ (by decide)).measured "\" f:(f:(a))" Filter.groupDepth =
      some 2 := by decide +kernel
  obtain ⟨f, hf, hleaves⟩ := exists_of_measured hleaves
  obtain ⟨g, hg, hdepth⟩ := exists_of_measured hdepth
  exact ⟨⟨f, hf, by omega⟩, g, hg, by omega⟩

end Compiler
end SearchFilter
