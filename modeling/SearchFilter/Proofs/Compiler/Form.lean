/-
# Filters of queries are well-formed

What the schema has to say about the fields of a clause is said of the columns of its
filter, and the shape of an atom decides the rest. A column for atoms without a field is
missing only where the schema has no fields:

| part of a clause | column |
| --- | --- |
| atom or group with a field | this field, which was looked up |
| atom without a field in a group with a field | the field of the group |
| any other atom | the default field of the schema |

So no query leads a renderer to one of its internal errors (`wellFormed_of_filter?`).
-/

import SearchFilter.Proofs.Grammar.Binding
import SearchFilter.Proofs.Render.Failure

namespace SearchFilter

open Grammar

/-! ### Columns that resolve -/

namespace Grammar

/-- A clause is written with field names. -/
theorem Reads.fieldText {c : Clause} {t r : List Char} (h : Reads c t r) :
    ∀ field ∈ c.fields, FieldText field := by
  induction h with
  | leaf hu _ _ =>
    rw [Clause.fields_suffixed]
    cases hu with
    | fielded hfield _ => simpa [Clause.fields] using hfield
    | term | phrase | range => simp [Clause.fields]
  | group _ _ _ ih => rwa [Clause.fields_suffixed]
  | fieldGroup hfield _ _ _ ih =>
    rw [Clause.fields_suffixed]
    exact List.forall_mem_cons.2 ⟨hfield, ih⟩
  | prefixed _ _ ih => rwa [Clause.fields_prefixed]
  | before _ _ ih | behind _ _ ih => exact ih
  | beside _ _ ihl ihr | and _ _ _ ihl ihr | or _ _ _ ihl ihr =>
    exact List.forall_mem_append.2 ⟨ihl, ihr⟩

end Grammar

namespace Schema

variable {s : Schema}

/-- A field name that is found resolves: behind its point stand name characters. -/
theorem resolves_of_check {field : List Char} (h : FieldText field)
    (hcheck : (columnOf field).check s = .ok ()) : s.Resolves (columnOf field) where
  names := names_of_check hcheck
  part := by
    cases h with
    | plain hid => simp [split_columnOf (not_mem_of_isIdentifier hid)]
    | dotted hid hne hpart =>
      rw [split_columnOf_dotted (not_mem_of_isIdentifier hid)]
      rintro _ ⟨⟩
      exact ⟨by rwa [String.toList_ofList], by rwa [String.toList_ofList]⟩

/-- The default field resolves. -/
theorem resolves_defaultField {c : Column} (h : c ∈ s.defaultField?.map Column.mk) :
    s.Resolves c where
  names := names_of_check (check_defaultField h)
  part := by
    obtain ⟨name, hname, rfl⟩ := Option.map_eq_some_iff.1 h
    obtain ⟨f, hf, rfl⟩ := Option.map_eq_some_iff.1 hname
    have hmem : f ∈ s.fields := by
      rcases Option.or_eq_some_iff.1 hf with hf | ⟨-, hf⟩
      · exact (List.mem_filter.1 (List.mem_of_mem_head? hf)).1
      · exact List.mem_of_mem_head? hf
    have hsplit := split_columnOf (not_mem_of_isIdentifier (s.named f hmem))
    rw [columnOf_toList] at hsplit
    simp [hsplit]

/-- Only a schema without fields has no default field. -/
theorem fields_of_defaultField?_eq_none (h : s.defaultField? = none) : s.fields = [] := by
  rw [defaultField?, Option.map_eq_none_iff, Option.or_eq_none_iff] at h
  exact List.head?_eq_none_iff.1 h.2

end Schema

/-! ### Lowering -/

variable {s : Schema} {column : Option Column}

namespace Grammar

/-- What is compared with is no group, and is finite if it is a number. -/
theorem Operand.isOperand_value (o : Operand) : o.value.IsOperand := by
  obtain ⟨s, hs⟩ | ⟨w, x, hx, hvalue⟩ := o.value_cases
  · rw [hs]
    exact .text _
  · rw [hvalue]
    exact .number (Decimal.isFinite_of_finite? hx)

/-- An atom has a well-formed filter where its column resolves. -/
theorem Atom.Tests.wellFormed {k : Column} {a : Atom} {f : Filter} (h : a.Tests k f)
    (hk : s.Resolves k) : f.WellFormed s := by
  have bound (b : Option (List Char)) : ∀ v ∈ b.map textValue, ∃ t, v = .text t := by
    intro v hv
    obtain ⟨t, -, rfl⟩ := Option.map_eq_some_iff.1 hv
    exact ⟨_, rfl⟩
  cases h with
  | like hstar => exact .like hk (by rwa [String.toList_ofList])
  | wild hstar hmark =>
    exact .wild hk (by rwa [String.toList_ofList]) (by rwa [String.toList_ofList])
  | equals | phrase => exact .equals hk
  | range => exact .range hk (bound _) (bound _)
  | @compare _ operand => exact .compare hk operand.isOperand_value

/-- **A clause whose fields resolve has a well-formed filter,** where a column for atoms
without a field is missing only if the schema has no fields. -/
theorem Clause.wellFormed_of_lower {c : Clause} {f : Filter} (h : c.lower column = .ok f)
    (hfields : ∀ field ∈ c.fields, s.Resolves (columnOf field)) (hcolumn : ∀ k ∈ column, s.Resolves k)
    (hnone : column = none → s.fields = []) : f.WellFormed s := by
  rw [lower_eq_ok_iff] at h
  induction h with
  | own ha => exact ha.wellFormed (hfields _ (by simp [fields]))
  | given ha => exact ha.wellFormed (hcolumn _ rfl)
  | bareTerm | barePhrase => exact .literal (hnone rfl)
  | fieldGroup _ ih =>
    obtain ⟨hfield, hinner⟩ := List.forall_mem_cons.1 hfields
    exact .group hfield (ih hinner (by rintro _ ⟨⟩; exact hfield) fun hnone => by cases hnone)
  | and _ _ ihl ihr | or _ _ ihl ihr =>
    obtain ⟨hfl, hfr⟩ := List.forall_mem_append.1 hfields
    constructor
    · exact ihl hfl hcolumn hnone
    · exact ihr hfr hcolumn hnone
  | must _ ih | mustNot _ ih | fuzzy _ ih | boost _ ih =>
    constructor
    exact ih hfields hcolumn hnone

end Grammar

/-! ### Compiling -/

namespace Compiler

open Query

variable {k : Compiler} {q : String}

/-- The filter of a query is well-formed. -/
theorem wellFormed_filter {f : Filter} (h : k.filter? q = .ok (some f)) :
    f.WellFormed k.schema := by
  have hpassed := passed_of_filter? h
  obtain ⟨c, hclause, hlower⟩ := exists_clause_of_filter? hpassed.grammar
  have hcheck := hpassed.columns f rfl
  rw [Schema.checkColumns_of_lower hlower fun _ => Schema.check_defaultField] at hcheck
  refine Clause.wellFormed_of_lower hlower (fun field hfield => ?_)
    (fun _ => Schema.resolves_defaultField) fun hnone => ?_
  · exact Schema.resolves_of_check ((reads_of_clause? hclause).fieldText field hfield)
      (Schema.check_of_checkFields hcheck field hfield)
  · exact Schema.fields_of_defaultField?_eq_none (Option.map_eq_none_iff.1 hnone)

/-- **What reaches a renderer is well-formed, and spares it its internal errors:** a query
with a filter is refused by a provider for an operator that the provider does not have, or
for a column whose part starts with a digit. -/
theorem wellFormed_of_filter? {f : Filter} (h : k.filter? q = .ok (some f)) :
    f.WellFormed k.schema ∧ ∀ (p : Provider) (e : QueryError), k.compile p q = .error e →
      ∃ r : RenderError, e = .render r ∧ r.IsDue f.columns := by
  have hform := wellFormed_filter h
  refine ⟨hform, fun p e he => ?_⟩
  rw [compile_of_filter? h] at he
  cases hr : p.render f with
  | ok r => rw [hr] at he; cases he
  | error r =>
    rw [hr] at he
    cases he
    exact ⟨r, rfl, p.failsOnly_render hform r hr⟩

/-- A part that starts with a digit, in a group behind a negation: the filter is well-formed,
and a provider refuses it for the part. -/
theorem wellFormed_of_digit_part :
    let k := sample 4 ⟨100, 9, 9⟩ (by decide)
    let q := "NOT f:(m.1x:>=5 OR a*) g:\"b\""
    ∃ f, k.filter? q = .ok (some f) ∧ f.WellFormed k.schema ∧
      k.compile .dynamodb q = .error (.render (.unsafeIdentifier "m.1x")) ∧
      (RenderError.unsafeIdentifier "m.1x").IsDue f.columns := by
  intro k q
  obtain ⟨f, hf⟩ : ∃ f, k.filter? q = .ok (some f) := exists_of_isSome_join (by decide +kernel)
  have herror : k.compile .dynamodb q = .error (.render (.unsafeIdentifier "m.1x")) := by
    have h : (k.compile .dynamodb q).map (fun _ => ()) =
        .error (.render (.unsafeIdentifier "m.1x")) := by decide +kernel
    cases he : k.compile .dynamodb q with
    | ok r => rw [he] at h; cases h
    | error e => rw [he] at h; cases h; rfl
  obtain ⟨hform, hdue⟩ := wellFormed_of_filter? hf
  obtain ⟨r, hr, hdue⟩ := hdue .dynamodb _ herror
  obtain rfl := QueryError.render.inj hr
  exact ⟨f, hf, hform, herror, hdue⟩

end Compiler

end SearchFilter
