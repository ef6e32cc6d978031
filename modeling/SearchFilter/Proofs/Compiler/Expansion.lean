/-
# Expansion of the text and of the tree

The compiler spreads words and phrases over the implicit fields before its grammar has seen
them, by putting tokens together anew. On written queries this comes to the same as spreading
them in the tree that the grammar makes of the raw text (`filter?_of_writes`): precedence,
signs and the groups of fields are those of the raw text, however deep it is nested.

| stage | goes through on the expanded text since |
| --- | --- |
| references | all its points are in fields (`Writes.shows`), and the fields are in the schema |
| grammar | the expanded text is written (`writes_expandFrom`), so it is read |
| columns | they are the same fields |
-/

import SearchFilter.Proofs.Compiler.Lookup
import SearchFilter.Proofs.Grammar.Completeness
import SearchFilter.Proofs.Grammar.Expansion
import SearchFilter.Proofs.Grammar.Points

namespace SearchFilter
namespace Compiler

open Grammar
open Query (tokens expandFrom)

variable {c : Compiler} {q : String} {clause : Clause} {name : List Char}
  {names : List (List Char)}

/-- The implicit fields are in the schema. -/
theorem check_of_mem_implicitNames {f : List Char} (h : f ∈ c.implicitNames) :
    (columnOf f).check c.schema = .ok () := by
  obtain ⟨field, hmem, rfl⟩ := exists_field_of_mem_implicitNames h
  rw [columnOf_toList]
  exact Schema.check_of_mem hmem

/-- Their names have no points. -/
theorem not_mem_implicitNames {f : List Char} (h : f ∈ c.implicitNames) : '.' ∉ f := by
  obtain ⟨field, hmem, rfl⟩ := exists_field_of_mem_implicitNames h
  exact Schema.not_mem_of_isIdentifier (c.schema.named field hmem)

/-- A query that is emitted as itself is not changed, whatever the implicit fields are. -/
theorem expand_of_emits (h : ∀ fields, Query.Emits fields false q.toList q.toList) :
    c.expand q = q := by
  by_cases hnames : c.implicitNames = []
  · exact expand_of_nil hnames q
  · rw [← String.toList_inj, toList_expand_of_ne_nil hnames, Query.expandFrom_of_emits (h _)]

/-- A query whose expanded text the grammar reads passes the stages behind the first, if its
references and its fields are in the schema. -/
theorem filter?_of_references {f : Filter} (hsize : c.checkSize q = .ok ())
    (hflush : IsFlush (c.expand q).toList) (hclause : clause? (c.expand q).toList = .ok clause)
    (hreferences : c.checkReferences (c.expand q) = .ok ())
    (hfields : c.schema.checkFields clause.fields = .ok ())
    (hlower : clause.lower c.defaultColumn? = .ok f) : c.filter? q = .ok (some f) := by
  have hfilter : Grammar.filter? c.defaultColumn? (c.expand q) = .ok (some f) :=
    filter?_of_clause? hflush.allBlank_eq hclause hlower
  have hcolumns : f.checkColumns c.schema = .ok () := by
    rw [Schema.checkColumns_of_lower hlower fun _ => Schema.check_defaultField, hfields]
  rw [filter?]
  refine bind_eq_ok.2 ⟨(), mapError_eq_ok.2 hsize, bind_eq_ok.2 ⟨(), mapError_eq_ok.2 hreferences, ?_⟩⟩
  refine bind_eq_ok.2 ⟨some f, mapError_eq_ok.2 hfilter, ?_⟩
  exact bind_eq_ok.2 ⟨(), mapError_eq_ok.2 hcolumns, rfl⟩

/-- Where the text has no points but those of its fields, these are its references. -/
theorem filter?_of_shows {f : Filter} (hsize : c.checkSize q = .ok ())
    (hflush : IsFlush (c.expand q).toList) (hclause : clause? (c.expand q).toList = .ok clause)
    (hshows : Shows (clause.fields.flatten.count '.') (c.expand q).toList)
    (hfields : c.schema.checkFields clause.fields = .ok ())
    (hlower : clause.lower c.defaultColumn? = .ok f) : c.filter? q = .ok (some f) := by
  have hagrees : Schema.Agrees False (c.checkReferences (c.expand q))
      (c.schema.checkFields clause.fields) :=
    Schema.agrees_of_clause? hclause (.inr hshows.points)
  have hreferences : c.checkReferences (c.expand q) = .ok () :=
    (hagrees.resolve_right fun h => h.1).trans hfields
  exact filter?_of_references hsize hflush hclause hreferences hfields hlower

/-- So does a query whose expanded text is written. -/
theorem filter?_of_expand {f : Filter} (hsize : c.checkSize q = .ok ())
    (hwrites : Writes .disjunction clause (c.expand q).toList)
    (hfields : c.schema.checkFields clause.fields = .ok ())
    (hlower : clause.lower c.defaultColumn? = .ok f) : c.filter? q = .ok (some f) :=
  filter?_of_shows hsize hwrites.isFlush (clause?_of_writes hwrites) hwrites.shows hfields hlower

/-- **Expanding the text is expanding the tree.** A written query is read as its clause, and
the filter is that of the clause with each word and phrase that has no field, outside the
groups of fields, spread over the implicit fields in their order. -/
theorem filter?_of_writes (hwrites : Writes .disjunction clause q.toList)
    (hnames : c.implicitNames = name :: names) (hfree : ∀ f ∈ c.implicitNames, isReserved f = false)
    (hsize : c.checkSize q = .ok ())
    (hfields : ∀ f ∈ clause.fields, (columnOf f).check c.schema = .ok ()) :
    clause? q.toList = .ok clause ∧
      ∃ f, clause.spread name names = .ok f ∧ c.filter? q = .ok (some f) := by
  obtain ⟨f, hf⟩ : ∃ f, clause.spread name names = .ok f := hwrites.exists_spread
  refine ⟨clause?_of_writes hwrites, f, hf, ?_⟩
  have hfreeNames : ∀ g ∈ name :: names, IsFree g := by
    rw [← hnames]
    exact fun g hg => ⟨fieldText_of_mem_implicitNames hg, hfree g hg⟩
  have hexpanded : Writes .disjunction (clause.spreadOver name names false) (c.expand q).toList := by
    rw [toList_expand_of_ne_nil (by simp [hnames]), hnames]
    exact writes_expandFrom hwrites hfreeNames
  refine filter?_of_expand hsize hexpanded (Schema.checkFields_eq_ok fun g hg => ?_)
    (lower_spreadOver hf _)
  rcases mem_fields_spreadOver hg with hg | hg
  · rw [← hnames] at hg
    exact check_of_mem_implicitNames hg
  · exact hfields g hg

/-- The negation covers all alternatives, and nothing is spread in the group of `f`. -/
theorem filter?_of_negated_group :
    let c := sample 2 ⟨100, 2, 9⟩ (by decide)
    c.filter? "-(a OR \"b c\") f:(d)" = .ok (some (.and
      (.mustNot (.or (.or (.like ⟨"f"⟩ "*a*") (.like ⟨"g"⟩ "*a*"))
        (.or (.equals ⟨"f"⟩ (.text "b c")) (.equals ⟨"g"⟩ (.text "b c")))))
      (.equals ⟨"f"⟩ (.group (.equals ⟨"f"⟩ (.text "d")))))) := by
  intro c
  have word {x : Char} (hx : x.isAlphanum = true) (hfree : isReserved [x] = false) :
      Writes .conjunction (.leaf none (.term [x])) [x] :=
    .factor (.unsigned (.leaf (.word ⟨by simp, by simpa using hx⟩ hfree)))
  have hinside : spanQuoted ['b', ' ', 'c'] = (['b', ' ', 'c'], []) := rfl
  have hphrase := Writes.factor (.unsigned (.leaf (.phrase (.mk hinside))))
  have hgroup :=
    Writes.group (.or (.conjunction (word (by decide) (by decide) (x := 'a'))) isKeyword_or hphrase)
  have hfield : IsFree ['f'] := ⟨.plain (by decide), by decide⟩
  have hnegated := Writes.signed (p := .mustNot) (x := '-') (by decide) (by decide) (.inl rfl) hgroup
  have hd := Writes.fieldGroup hfield (.conjunction (word (by decide) (by decide) (x := 'd')))
  have hwrites := Writes.conjunction (.beside (.factor hnegated) (.unsigned hd))
  obtain ⟨-, f, hf, hfilter⟩ := filter?_of_writes (c := c) (q := "-(a OR \"b c\") f:(d)") hwrites
    (show c.implicitNames = [['f'], ['g']] by decide +kernel) (by decide +kernel)
    (by decide +kernel) (by decide +kernel)
  obtain rfl := Except.ok.inj hf
  exact hfilter

end Compiler
end SearchFilter
