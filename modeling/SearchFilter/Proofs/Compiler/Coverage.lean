/-
# What DynamoDB accepts

PartiQL has no words for a single-character wildcard, for likeness, and for a pattern with a
wildcard in its middle. A query without them is accepted for DynamoDB exactly where it is for
SQL, and the values are the same.

| query | SQL | DynamoDB |
| --- | --- | --- |
| `f:ab*` | `"f"::text ILIKE $1`, value `ab%` | `begins_with(f, 'ab')`, value `ab` |
| `f:*` | `"f"::text ILIKE $1`, value `%` | `f IS NOT MISSING`, no value |
| `f:a*b`, `f:a?` | accepted | refused |

Main statement: `exists_compile_dynamodb_iff`.
-/

import SearchFilter.Proofs.Compiler.Form
import SearchFilter.Proofs.Grammar.Terms
import SearchFilter.Proofs.Render.Expressible

namespace SearchFilter
namespace Compiler

variable {k : Compiler} {q : String} {f : Filter}

/-- The patterns of queries are terms of the grammar, whose backslashes all escape something. -/
theorem isWhole_of_filter? (h : k.filter? q = .ok (some f)) : f.IsWhole := by
  obtain ⟨c, hclause, hlower⟩ := Grammar.exists_clause_of_filter? (passed_of_filter? h).grammar
  intro g hg p hp
  have hmem := Grammar.Clause.mem_terms_of_lower hlower g hg p hp
  exact ((Grammar.reads_of_clause? hclause).isTerm _ hmem).cut_not_mem

/-- A query is compiled if it has a filter that the provider renders. -/
theorem exists_compile_iff (h : k.filter? q = .ok (some f)) (p : Provider) :
    (∃ r, k.compile p q = .ok (some r)) ↔ ∃ r, p.render f = .ok r := by
  constructor
  · rintro ⟨r, hr⟩
    obtain ⟨f', hf', hrender⟩ := exists_of_compile hr
    obtain rfl := Option.some.inj (Except.ok.inj (h.symm.trans hf'))
    exact ⟨r, hrender⟩
  · rintro ⟨r, hr⟩
    refine ⟨r, ?_⟩
    rw [compile_of_filter? h, hr]
    rfl

/-- A dialect renders a filter where it has a clause for it. -/
theorem exists_render_sql_iff (d : Sql.Dialect) :
    (∃ r, (Provider.sql d).render f = .ok r) ↔ ∃ clause, Sql.render d f = .ok clause := by
  constructor
  · rintro ⟨r, hr⟩
    obtain ⟨clause, hclause, -⟩ := map_eq_ok.1 hr
    exact ⟨clause, hclause⟩
  · rintro ⟨clause, hclause⟩
    exact ⟨_, map_eq_ok.2 ⟨clause, hclause, rfl⟩⟩

/-- DynamoDB renders a filter where PartiQL has a condition for it. -/
theorem exists_render_dynamodb_iff :
    (∃ r, Provider.dynamodb.render f = .ok r) ↔ ∃ condition, PartiQL.render f = .ok condition := by
  constructor
  · rintro ⟨r, hr⟩
    obtain ⟨condition, hcondition, -⟩ := map_eq_ok.1 hr
    exact ⟨condition, hcondition⟩
  · rintro ⟨condition, hcondition⟩
    exact ⟨_, map_eq_ok.2 ⟨condition, hcondition, rfl⟩⟩

/-- A query with a filter is compiled for DynamoDB if it is for a dialect and its nodes can be
expressed. -/
theorem exists_compile_iff_sql (h : k.filter? q = .ok (some f)) (d : Sql.Dialect) :
    (∃ r, k.compile .dynamodb q = .ok (some r)) ↔
      (∃ r, k.compile (.sql d) q = .ok (some r)) ∧ ∀ g ∈ f.nodes, g.isExpressible = true := by
  rw [exists_compile_iff h, exists_compile_iff h, exists_render_dynamodb_iff, exists_render_sql_iff]
  exact PartiQL.exists_render_iff_sql (wellFormed_filter h) d

/-- **DynamoDB accepts what SQL accepts and PartiQL can express,** with the values that SQL binds,
in their order; patterns of stars alone have no value there. -/
theorem exists_compile_dynamodb_iff (k : Compiler) (q : String) :
    ((∃ r, k.compile .dynamodb q = .ok (some r)) ↔
      (∃ r, k.compile (.sql .postgresql) q = .ok (some r)) ∧
        ∃ f, k.filter? q = .ok (some f) ∧ ∀ g ∈ f.nodes, g.isExpressible = true) ∧
      ∀ r, k.compile .dynamodb q = .ok (some r) →
        (∀ d, ∃ r', k.compile (.sql d) q = .ok (some r')) ∧
          ∃ f condition clause, k.filter? q = .ok (some f) ∧ r = .partiql condition ∧
            k.compile (.sql .postgresql) q = .ok (some (.sql clause)) ∧
              PartiQL.Beside f clause.params condition.attributes := by
  refine ⟨⟨?_, ?_⟩, fun r hr => ?_⟩
  · rintro ⟨r, hr⟩
    obtain ⟨f, hf, -⟩ := exists_of_compile hr
    obtain ⟨hsql, hexpressible⟩ := (exists_compile_iff_sql hf .postgresql).1 ⟨r, hr⟩
    exact ⟨hsql, f, hf, hexpressible⟩
  · rintro ⟨hsql, f, hf, hexpressible⟩
    exact (exists_compile_iff_sql hf .postgresql).2 ⟨hsql, hexpressible⟩
  · obtain ⟨f, hf, hrender⟩ := exists_of_compile hr
    have hall (d : Sql.Dialect) : ∃ r', k.compile (.sql d) q = .ok (some r') :=
      ((exists_compile_iff_sql hf d).1 ⟨r, hr⟩).1
    obtain ⟨condition, hcondition, rfl⟩ := map_eq_ok.1 hrender
    obtain ⟨r', hr'⟩ := hall .postgresql
    obtain ⟨f', hf', hsql⟩ := exists_of_compile hr'
    obtain rfl := Option.some.inj (Except.ok.inj (hf.symm.trans hf'))
    obtain ⟨clause, hclause, rfl⟩ := map_eq_ok.1 hsql
    refine ⟨hall, f, condition, clause, hf, rfl, hr', ?_⟩
    exact PartiQL.beside_of_render (wellFormed_filter hf) (isWhole_of_filter? hf) hcondition hclause

/-- A pattern, a range with one number, and stars alone, which bind a value but list none. -/
theorem compile_dynamodb_of_stars :
    let k := sample 4 .standard (by decide)
    let q := "f:ab* AND g:[1 TO x] AND m.y:*"
    ∃ f condition clause, k.compile .dynamodb q = .ok (some (.partiql condition)) ∧
      condition.statement =
        "((begins_with(f, 'ab')) AND (g BETWEEN 1 AND 'x')) AND (m.y IS NOT MISSING)" ∧
      k.compile (.sql .postgresql) q = .ok (some (.sql clause)) ∧
      PartiQL.Beside f clause.params condition.attributes := by
  intro k q
  have htext : k.compiledText .dynamodb q =
      some "((begins_with(f, 'ab')) AND (g BETWEEN 1 AND 'x')) AND (m.y IS NOT MISSING)" := by
    decide +kernel
  obtain ⟨r, hr, htext⟩ := exists_of_compiledText htext
  obtain ⟨-, f, condition, clause, -, rfl, hclause, hbeside⟩ :=
    (exists_compile_dynamodb_iff k q).2 r hr
  exact ⟨f, condition, clause, hr, htext, hclause, hbeside⟩

end Compiler
end SearchFilter
