/-
# What PartiQL can express

PartiQL writes what SQL writes, apart from three kinds of nodes that it has no words for. A
value that it lists is the one that SQL binds in the same place:

| leaf | parameter | attribute |
| --- | --- | --- |
| a string | the string | the string |
| a number | the number | its text |
| a bound that writes a number | the string | the text of the number |
| a pattern with a shape | its `LIKE` pattern | the text of the shape |
| a pattern of stars alone | `%` or more of them | none |

Main statements: `exists_render_iff_sql` and `beside_of_render`.
-/

import Mathlib.Data.List.Forall2
import SearchFilter.Proofs.Pattern.Shape
import SearchFilter.Proofs.Render.Agreement
import SearchFilter.Proofs.Render.Clause
import SearchFilter.Proofs.Render.Failure
import SearchFilter.Proofs.Render.Statement

namespace SearchFilter

/-! ### Nodes that PartiQL has words for -/

namespace Filter

/-- Whether PartiQL has words for a node: for no single-character wildcard, no likeness, and no
pattern with a wildcard in its middle. -/
def isExpressible : Filter → Bool
  | wild .. => false
  | fuzzy .. => false
  | like _ p => (Pattern.shape? p).isSome
  | _ => true

/-- Whether a filter is a pattern of stars alone, which any text matches. -/
def isStars : Filter → Bool
  | like _ p => p.toList.all (· == '*')
  | _ => false

/-- The predicates of a well-formed filter are well-formed. -/
theorem WellFormed.of_mem_predicates {s : Schema} {f g : Filter} (h : f.WellFormed s)
    (hg : g ∈ f.predicates) : g.WellFormed s := by
  induction f using predicate_induction with
  | predicate f hf =>
    rw [predicates_of_isPredicate hf, List.mem_singleton] at hg
    exact hg ▸ h
  | group c f ih => cases h with | group _ hf => exact ih hf hg
  | and l r ihl ihr =>
    cases h with | and hl hr => exact (List.mem_append.1 hg).elim (ihl hl) (ihr hr)
  | or l r ihl ihr =>
    cases h with | or hl hr => exact (List.mem_append.1 hg).elim (ihl hl) (ihr hr)
  | must f ih => cases h with | must hf => exact ih hf hg
  | mustNot f ih => cases h with | mustNot hf => exact ih hf hg

end Filter

/-! ### Patterns of stars alone -/

namespace Pattern

open Text (Glyph glyphs)

/-- Stars alone are bare glyphs. -/
theorem glyphs_eq_of_all {s : List Char} (h : s.all (· == '*') = true) :
    glyphs s = s.map Glyph.bare :=
  Grammar.glyphs_of_not_mem fun hmem => absurd (List.all_eq_true.1 h _ hmem) (by decide)

/-- A word whose glyphs are all stars is written with stars. -/
theorem all_of_forall_isStar {s : List Char} (h : ∀ g ∈ glyphs s, isStar g = true) :
    s.all (· == '*') = true := by
  rw [← Text.spell_glyphs s, List.all_eq_true]
  intro c hc
  obtain ⟨g, hg, hc⟩ := List.mem_flatMap.1 hc
  obtain rfl : g = .bare '*' := by simpa [isStar] using h g hg
  simpa [Glyph.spell] using hc

/-- Stars alone have the shape of any text. -/
theorem shape?_of_all {p : String} (hne : p.toList ≠ []) (h : p.toList.all (· == '*') = true) :
    shape? p = some .any := by
  have hglyphs := glyphs_eq_of_all h
  have hstar : ∀ g ∈ glyphs p.toList, isStar g = true := by
    rw [hglyphs]
    intro g hg
    obtain ⟨c, hc, rfl⟩ := List.mem_map.1 hg
    obtain rfl : c = '*' := by simpa using List.all_eq_true.1 h c hc
    rfl
  have hbody : dropLeading (glyphs p.toList) = [] := List.dropWhile_eq_nil_iff.2 hstar
  have hmark : Glyph.bare '?' ∉ glyphs p.toList := fun hmem => absurd (hstar _ hmem) (by decide)
  have hlength : 0 < (glyphs p.toList).length := by
    rw [hglyphs, List.length_map]
    exact List.length_pos_iff.2 hne
  simp [shape?_eq, shapeOf?, core, coreText, hbody, dropTrailing, hmark, hlength]

/-- A pattern without a cut backslash has the shape of any text only if it is stars alone. -/
theorem all_of_shape? {p : String} (hcut : Glyph.cut ∉ glyphs p.toList)
    (h : shape? p = some .any) : p.toList.all (· == '*') = true := by
  have htext : coreText (glyphs p.toList) = [] := by
    rcases shape_of_ends (shape?_eq p ▸ h) with ⟨-, htext, -⟩ | ⟨hshape, -⟩ | ⟨hshape, -⟩ | ⟨hshape, -⟩
    · exact htext
    all_goals cases hshape
  have hcore := core_eq_nil hcut htext
  obtain ⟨m, n, hglyphs, -, -⟩ := exists_core (glyphs p.toList)
  rw [hcore, List.nil_append, ← List.replicate_add] at hglyphs
  refine all_of_forall_isStar fun g hg => ?_
  rw [hglyphs] at hg
  rw [List.eq_of_mem_replicate hg]
  rfl

end Pattern

/-! ### Agreement with SQL -/

namespace PartiQL

variable {s : Schema} {c : Column}

/-- What resolves and cannot be written unquoted has a part that is no identifier, and all targets
refuse it. -/
theorem column_of_not_isSafe (h : s.Resolves c) (hsafe : ¬ c.IsSafe) :
    path c = .error (.unsafeIdentifier c.name) ∧
      ∀ d : Sql.Dialect, d.column c = .error (.unsafeIdentifier c.name) := by
  have hbase := Sql.isIdentifier_of_names h.names
  obtain ⟨part, hpart, hid⟩ : ∃ part ∈ c.split.2, Text.isIdentifier part.toList = false := by
    simpa [Column.IsSafe, hbase] using hsafe
  refine ⟨?_, fun d => ?_⟩
  · have hpoint : '.' ∉ part.toList := fun hmem =>
      absurd (List.all_eq_true.1 (h.part part hpart).2 _ hmem) (by decide)
    have hname := c.toList_name
    rw [hpart] at hname
    rw [path, if_neg]
    simp [hname, Lexeme.segments_append (Schema.not_mem_of_isIdentifier hbase),
      Lexeme.segments_of_not_mem hpoint, hid]
  · have hsplit : c.split = (c.split.1, some part) := Prod.ext rfl hpart
    rw [Sql.Dialect.column, hsplit]
    simp [hid]

/-- PartiQL writes a column where a dialect does. -/
theorem alike_column (h : s.Resolves c) (d : Sql.Dialect) :
    Alike (fun _ _ => True) (path c) (d.column c) := by
  by_cases hsafe : c.IsSafe
  · obtain ⟨text, htext⟩ := Sql.exists_column d hsafe
    rw [hsafe.path_eq, htext]
    exact .ok trivial
  · obtain ⟨hpath, hcolumn⟩ := column_of_not_isSafe h hsafe
    rw [hpath, hcolumn]
    exact .error _

/-- Results of which only the fact that there is one matters. -/
abbrev Both : Fragment Attribute → Fragment Json → Prop := Tied fun _ _ => True

/-- Two results that there are agree on that. -/
theorem alike_of_exists {x : Except RenderError (Fragment Attribute)}
    {y : Except RenderError (Fragment Json)} (hx : ∃ a, x = .ok a) (hy : ∃ b, y = .ok b) :
    Alike Both x y := by
  obtain ⟨a, rfl⟩ := hx
  obtain ⟨b, rfl⟩ := hy
  exact .ok trivial

/-- PartiQL writes the values of well-formed filters, and dialects bind them. -/
theorem alike_value {v : Value} (hv : v.IsOperand) (d : Sql.Dialect) :
    Alike Both (target.value v) (d.target.value v) := by
  refine alike_of_exists ?_ (Sql.exists_bind hv)
  cases hv <;> exact ⟨_, rfl⟩

/-- PartiQL writes any text as a bound, and dialects bind it. -/
theorem alike_bound (t : String) (d : Sql.Dialect) :
    Alike Both (target.bound (.text t)) (d.target.bound (.text t)) := by
  refine alike_of_exists ?_ (Sql.exists_bind (.text t))
  show ∃ a, bound (.text t) = .ok a
  rw [bound]
  split <;> exact ⟨_, rfl⟩

/-- On a predicate that it has words for, PartiQL agrees with every dialect. -/
theorem alike_predicate {g : Filter} (h : g.WellFormed s) (hg : g.isPredicate = true)
    (hexpressible : g.isExpressible = true) (d : Sql.Dialect) :
    Alike Both (target.render g) (d.target.render g) := by
  cases h with
  | literal => exact .error _
  | equals hc =>
    exact Target.alike_equals isPartwise_true (alike_column hc d) (alike_value (.text _) d)
  | compare hc hv =>
    exact Target.alike_compare isPartwise_true _ (alike_column hc d) (alike_value hv d)
  | @like c p hc _ =>
    obtain ⟨shape, hshape⟩ := Option.isSome_iff_exists.1 hexpressible
    show Alike Both (PartiQL.like c p) (Sql.like d c p)
    refine (alike_column hc d).bind fun text text' _ => ?_
    rw [hshape]
    cases shape <;> cases d <;> exact .ok trivial
  | range hc hmin hmax =>
    refine Target.alike_range isPartwise_true _ (alike_column hc d) (fun v hv => ?_) fun v hv => ?_
    · obtain ⟨t, rfl⟩ := hmin v hv
      exact alike_bound t d
    · obtain ⟨t, rfl⟩ := hmax v hv
      exact alike_bound t d
  | boost => exact .error _
  | group | and | or | must | mustNot => cases hg
  | wild | fuzzy => cases hexpressible

/-- PartiQL takes no groups for values and has no likeness. -/
theorem isPlain : target.IsPlain where
  value _ := rfl
  bound _ := rfl
  fuzzy _ := ⟨_, rfl⟩

/-- What PartiQL writes it has words for, in every node. -/
theorem isExpressible_of_render {f : Filter} {a : Fragment Attribute}
    (h : target.render f = .ok a) : ∀ g ∈ f.nodes, g.isExpressible = true := by
  intro g hg
  obtain hconnective | ⟨b, hb⟩ := Target.forall_mem_nodes_of_render isPlain h g hg
  · cases g with
    | like c p => cases hconnective
    | wild c p => cases hconnective
    | fuzzy f n => cases hconnective
    | _ => rfl
  · cases g with
    | wild c p => cases hb
    | fuzzy f n => cases hb
    | like c p =>
      obtain ⟨_, -, hb⟩ := bind_eq_ok.1 hb
      rw [Filter.isExpressible]
      cases hshape : Pattern.shape? p with
      | none => rw [hshape] at hb; cases hb
      | some shape => rfl
    | _ => rfl

/-- A statement is rendered exactly where its condition is. -/
theorem exists_render_iff {f : Filter} :
    (∃ condition, render f = .ok condition) ↔ ∃ a, target.render f = .ok a := by
  constructor
  · rintro ⟨condition, h⟩
    obtain ⟨a, ha, -⟩ := bind_eq_ok.1 h
    exact ⟨a, ha⟩
  · rintro ⟨a, ha⟩
    exact ⟨_, bind_eq_ok.2 ⟨a, ha, rfl⟩⟩

/-- A clause is rendered exactly where its condition is. -/
theorem exists_clause_iff {d : Sql.Dialect} {f : Filter} :
    (∃ clause, Sql.render d f = .ok clause) ↔ ∃ a, d.target.render f = .ok a := by
  constructor
  · rintro ⟨clause, h⟩
    obtain ⟨a, ha, -⟩ := bind_eq_ok.1 h
    exact ⟨a, ha⟩
  · rintro ⟨a, ha⟩
    exact ⟨_, bind_eq_ok.2 ⟨a, ha, rfl⟩⟩

/-- **PartiQL writes what it has words for, if SQL writes it.** -/
theorem exists_render_iff_sql {f : Filter} (hf : f.WellFormed s) (d : Sql.Dialect) :
    (∃ condition, render f = .ok condition) ↔
      (∃ clause, Sql.render d f = .ok clause) ∧ ∀ g ∈ f.nodes, g.isExpressible = true := by
  have halike (h : ∀ g ∈ f.nodes, g.isExpressible = true) :
      Alike Both (target.render f) (d.target.render f) := by
    refine Target.alike_render isPartwise_true fun g hg => ?_
    exact alike_predicate (hf.of_mem_predicates hg) (Filter.isPredicate_of_mem_predicates hg)
      (h g (Filter.mem_nodes_of_mem_predicates hg)) d
  rw [exists_render_iff, exists_clause_iff]
  constructor
  · rintro ⟨a, ha⟩
    have hexpressible := isExpressible_of_render ha
    exact ⟨(halike hexpressible).exists_iff.1 ⟨a, ha⟩, hexpressible⟩
  · rintro ⟨hclause, hexpressible⟩
    exact (halike hexpressible).exists_iff.2 hclause

/-! ### Values side by side -/

/-- A parameter and an attribute for the same value. -/
inductive SameValue : Json → Attribute → Prop
  | text (t : String) : SameValue (.string t) (.text t)
  | number {x : Double} : x.isFinite = true →
    SameValue (Value.number x).parameter (.number (numberText x))
  /-- a bound that writes a number -/
  | numeral {t : String} {x : Double} : Decimal.finite? t.toList = some x →
    SameValue (.string t) (.number (numberText x))
  /-- a pattern, and the text that its shape asks for -/
  | pattern {p t : String} {shape : Pattern.Shape} : Pattern.shape? p = some shape →
    shape.attribute? = some (.text t) → SameValue (.string (Pattern.toLike p)) (.text t)

/-- The attributes of a filter beside its parameters: leaf by leaf the same values in the same
order, but no attributes for a pattern of stars alone. -/
structure Beside (f : Filter) (params : List Json) (attributes : List Attribute) : Prop where
  params : params = f.predicates.flatMap Filter.boundValues
  attributes : attributes = f.predicates.flatMap Filter.attributes
  stars : ∀ g ∈ f.predicates, g.isStars = true → g.boundValues.length = 1 ∧ g.attributes = []
  others : ∀ g ∈ f.predicates, g.isStars = false → List.Forall₂ SameValue g.boundValues g.attributes

/-- The parameter and the attribute of a value are for the same value. -/
theorem sameValue_operand {v : Value} (hv : v.IsOperand) : SameValue v.parameter v.attribute := by
  cases hv with
  | text t => exact .text t
  | number hx => exact .number hx

/-- The parameter and the attribute of a bound are for the same value. -/
theorem sameValue_bound (t : String) :
    SameValue (Value.text t).parameter (Value.text t).boundAttribute := by
  rw [Value.boundAttribute]
  split
  · rename_i x hx
    exact .numeral hx
  · exact .text t

/-- A pattern of stars alone binds one value and lists none. -/
theorem values_of_isStars {g : Filter} (h : g.WellFormed s) (hstars : g.isStars = true) :
    g.boundValues.length = 1 ∧ g.attributes = [] := by
  cases h with
  | @like c p _ hbare =>
    have hne : p.toList ≠ [] := by
      intro hnil
      rw [hnil] at hbare
      cases hbare
    rw [Filter.attributes, Pattern.shape?_of_all hne hstars]
    exact ⟨rfl, rfl⟩
  | _ => cases hstars

/-- Any other leaf lists the values that it binds. -/
theorem forall₂_values {g : Filter} (h : g.WellFormed s) (hg : g.isPredicate = true)
    (hexpressible : g.isExpressible = true)
    (hcut : ∀ p ∈ g.pattern?, Text.Glyph.cut ∉ Text.glyphs p.toList) (hstars : g.isStars = false) :
    List.Forall₂ SameValue g.boundValues g.attributes := by
  cases h with
  | literal => exact .nil
  | equals hc =>
    rw [Filter.boundValues, Filter.attributes]
    split
    · exact .nil
    · exact .cons (.text _) .nil
  | compare hc hv => exact .cons (sameValue_operand hv) .nil
  | @like c p hc _ =>
    obtain ⟨shape, hshape⟩ := Option.isSome_iff_exists.1 hexpressible
    obtain ⟨t, ht⟩ : ∃ t, shape.attribute? = some (.text t) := by
      cases shape with
      | any =>
        -- only stars alone have this shape
        have hall := Pattern.all_of_shape? (hcut p rfl) hshape
        exact Bool.noConfusion (hstars.symm.trans hall)
      | contains t => exact ⟨t, rfl⟩
      | beginsWith t => exact ⟨t, rfl⟩
      | exact t => exact ⟨t, rfl⟩
    rw [Filter.boundValues, Filter.attributes, hshape, Option.bind_some, ht]
    exact .cons (.pattern hshape ht) .nil
  | range hc hmin hmax =>
    rw [Filter.boundValues, Filter.attributes, List.forall₂_map_left_iff,
      List.forall₂_map_right_iff, List.forall₂_same]
    intro v hv
    obtain ⟨t, rfl⟩ : ∃ t, v = .text t := by
      rcases List.mem_append.1 hv with hv | hv
      · exact hmin v (by simpa using hv)
      · exact hmax v (by simpa using hv)
    exact sameValue_bound t
  | boost => exact .nil
  | group | and | or | must | mustNot => cases hg
  | wild | fuzzy => cases hexpressible

/-- **PartiQL lists the values that SQL binds.** -/
theorem beside_of_render {f : Filter} {d : Sql.Dialect} {condition : Condition}
    {clause : Sql.Clause} (hf : f.WellFormed s) (hwhole : f.IsWhole)
    (h : render f = .ok condition) (hsql : Sql.render d f = .ok clause) :
    Beside f clause.params condition.attributes := by
  have hexpressible := ((exists_render_iff_sql hf d).1 ⟨condition, h⟩).2
  obtain ⟨a, ha, h⟩ := bind_eq_ok.1 h
  obtain rfl := Except.ok.inj h
  obtain ⟨b, hb, hsql⟩ := bind_eq_ok.1 hsql
  obtain rfl := Except.ok.inj hsql
  refine ⟨(Sql.writes_of_render hb).values, (writes_of_render '"' ha).values, ?_, ?_⟩
  · exact fun g hg => values_of_isStars (hf.of_mem_predicates hg)
  · exact fun g hg => forall₂_values (hf.of_mem_predicates hg)
      (Filter.isPredicate_of_mem_predicates hg)
      (hexpressible g (Filter.mem_nodes_of_mem_predicates hg)) (hwhole g hg)

end PartiQL
end SearchFilter
