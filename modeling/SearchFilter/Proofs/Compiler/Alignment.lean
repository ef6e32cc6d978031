/-
# Placeholders and parameters

A query that is compiled to SQL gives a text and parameters. The parameters are the
bound values of the leaves, from left to right; the placeholders are as many and stand
in the predicates of those leaves; and all names in the text are names of the schema.
-/

import SearchFilter.Proofs.Compiler.Stages
import SearchFilter.Proofs.Render.Clause

namespace SearchFilter
namespace Compiler

/-- **Placeholders and parameters line up,** from the query to the text. -/
theorem aligned_of_compile {c : Compiler} {d : Sql.Dialect} {q : String} {r : Rendered}
    (h : c.compile (.sql d) q = .ok (some r)) :
    ∃ f clause, c.filter? q = .ok (some f) ∧ r = .sql clause ∧
      Sql.Aligned d c.schema f clause := by
  obtain ⟨f, hf, hrender⟩ := exists_of_compile h
  obtain ⟨clause, hclause, rfl⟩ := map_eq_ok.1 hrender
  have hcolumns := (passed_of_filter? hf).columns f rfl
  exact ⟨f, clause, hf, rfl, Sql.aligned_of_render hcolumns hclause⟩

/-- Two values of a range and one pattern for a part of a column. -/
theorem aligned_of_range :
    ∃ f clause, (sample 4 .standard (by decide)).filter? "f:[a TO b] AND NOT m.x:c*" =
        .ok (some f) ∧
      clause.sql = "(\"f\" BETWEEN $1 AND $2) AND (NOT (m->>'x' ILIKE $3))" ∧
      Sql.Aligned .postgresql (sample 4 .standard (by decide)).schema f clause := by
  have htext : (sample 4 .standard (by decide)).compiledText (.sql .postgresql)
      "f:[a TO b] AND NOT m.x:c*" =
      some "(\"f\" BETWEEN $1 AND $2) AND (NOT (m->>'x' ILIKE $3))" := by decide +kernel
  obtain ⟨r, hr, htext⟩ := exists_of_compiledText htext
  obtain ⟨f, clause, hf, rfl, haligned⟩ := aligned_of_compile hr
  exact ⟨f, clause, hf, htext, haligned⟩

end Compiler
end SearchFilter
