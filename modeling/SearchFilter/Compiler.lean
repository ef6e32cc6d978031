/-
# The compiler

A compiler belongs to one schema and one set of limits. It takes a query through
five stages, each of which can refuse it:

1. the size of the raw text is held against the limits;
2. words without a field are spread over the implicit fields;
3. the field references of the expanded text are looked up;
4. the grammar reads the expanded text, with the default field of the schema;
5. the columns of the filter are looked up, and it is rendered.

A blank query is no filter.
-/

import SearchFilter.Query.Expansion
import SearchFilter.Query.Reference
import SearchFilter.QueryError
import SearchFilter.Render.Provider
import SearchFilter.Tree.Columns

namespace SearchFilter

/-- A schema with limits, none of which is zero. -/
structure Compiler where
  schema : Schema
  limits : Query.Limits
  limits_pos : limits.fault? = none

namespace Compiler

/-- The compiler of a schema and limits. -/
def of (schema : Schema) (limits : Query.Limits) : Except SetupError Compiler :=
  match h : limits.fault? with
  | some e => .error e
  | none => .ok ⟨schema, limits, h⟩

/-- The field of a word that has none and is not expanded. -/
def defaultColumn? (c : Compiler) : Option Column := c.schema.defaultField?.map Column.mk

/-- Holds a raw query against the limits. -/
def checkSize (c : Compiler) (query : String) : Except (List Query.Violation) Unit :=
  (c.limits.check query).map fun _ => ()

/-- Spreads words without a field over the implicit fields. -/
def expand (c : Compiler) (query : String) : String :=
  Query.expand (c.schema.implicitFields.map Field.name) query

/-- Looks up the field references of a text. -/
def checkReferences (c : Compiler) (text : String) : Except FieldError Unit :=
  Query.checkReferences c.schema text

/-- The filter of a query. -/
def filter? (c : Compiler) (query : String) : Except QueryError (Option Filter) := do
  (c.checkSize query).mapError .limits
  let text := c.expand query
  (c.checkReferences text).mapError .field
  let filter ← (Grammar.filter? c.defaultColumn? text).mapError .grammar
  if let some f := filter then
    (f.checkColumns c.schema).mapError .field
  return filter

/-- The query rendered for a provider. -/
def compile (c : Compiler) (p : Provider) (query : String) :
    Except QueryError (Option Rendered) := do
  match ← c.filter? query with
  | none => return none
  | some f => some <$> (p.render f).mapError .render

/-- No limit of a compiler is zero. -/
theorem limits_ne_zero (c : Compiler) (m : Query.Measure) : c.limits.get m ≠ 0 := by
  intro h
  have := c.limits_pos
  simp only [Query.Limits.fault?, Option.map_eq_none_iff, List.find?_eq_none, beq_iff_eq] at this
  exact this m m.mem_all h

end Compiler
end SearchFilter
