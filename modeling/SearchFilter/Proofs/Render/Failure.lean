/-
# What rendering can fail with

A well-formed filter spares the renderers their internal errors. What is left is due to
the filter as its author wrote it:

| error | due to |
| --- | --- |
| `group`, `number` | nothing: a group stands in `equals` only, and numbers are finite |
| `unsafeIdentifier` | a column whose part starts with a digit |
| all others | an operator that the target does not have |

A target that fails for no other reason on columns, values and patterns fails for no
other one on filters (`Target.Meets.failsOnly_render`), and all targets are of this kind.
-/

import SearchFilter.Proofs.Compiler.Literal
import SearchFilter.Proofs.Tree.WellFormed

namespace SearchFilter

/-- An error that well-formed filters with these columns can lead to. -/
structure RenderError.IsDue (columns : List Column) (e : RenderError) : Prop where
  group : e.operator? ≠ some "group"
  number : e.operator? ≠ some "number"
  identifier : ∀ n, e = .unsafeIdentifier n → ∃ c ∈ columns, c.name = n ∧
    ∃ part ∈ c.split.2, ∃ d ∈ part.toList.head?, d.isDigit = true

open RenderError (IsDue)

variable {s : Schema} {cs : List Column} {c : Column}

/-- An operator that the target does not have is a due reason, but for groups and numbers. -/
theorem isDue_of_operator? {e : RenderError} {operator : String}
    (h : e.operator? = some operator) (hgroup : operator ≠ "group") (hnumber : operator ≠ "number") :
    e.IsDue cs where
  group := by simpa [h] using hgroup
  number := by simpa [h] using hnumber
  identifier := by
    rintro n rfl
    cases h

/-- A column that resolves and cannot be written unquoted has a part that starts with a digit. -/
theorem isDue_unsafeIdentifier (hc : c ∈ cs) (h : s.Resolves c) (hsafe : ¬ c.IsSafe) :
    (RenderError.unsafeIdentifier c.name).IsDue cs where
  group := nofun
  number := nofun
  identifier := by
    rintro _ ⟨⟩
    exact ⟨c, hc, rfl, h.isSafe_or.resolve_left hsafe⟩

namespace Target

variable {α : Type} {t : Target α}

/-- A target that fails on the columns `cs` for due reasons only, and never on the values of
well-formed filters. -/
structure Meets (t : Target α) (s : Schema) (cs : List Column) : Prop where
  column : ∀ {c}, c ∈ cs → s.Resolves c → FailsOnly (IsDue cs) (t.column c)
  value : ∀ {v}, v.IsOperand → ∃ b, t.value v = .ok b
  bound : ∀ x, ∃ b, t.bound (.text x) = .ok b
  like : ∀ {c} p, c ∈ cs → s.Resolves c → FailsOnly (IsDue cs) (t.like c p)
  wild : ∀ {c} p, c ∈ cs → s.Resolves c → FailsOnly (IsDue cs) (t.wild c p)
  fuzzy : ∀ {f : Filter}, f.columns ⊆ cs → f.WellFormed s → FailsOnly (IsDue cs) (t.fuzzy f)

/-- An equality fails for due reasons only. -/
theorem Meets.failsOnly_equals (ht : t.Meets s cs) (hc : c ∈ cs) (h : s.Resolves c) {v : Value}
    (hv : v.IsOperand) : FailsOnly (IsDue cs) (t.equals c v) := by
  refine (ht.column hc h).bind fun text => ?_
  split
  · exact .ok _
  · exact (FailsOnly.of_exists (ht.value hv)).bind fun _ => .ok _

/-- A comparison fails for due reasons only. -/
theorem Meets.failsOnly_compare (ht : t.Meets s cs) (op : Comparison) (hc : c ∈ cs)
    (h : s.Resolves c) {v : Value} (hv : v.IsOperand) : FailsOnly (IsDue cs) (t.compare op c v) := by
  rw [compare]
  split
  · exact .error (isDue_of_operator? rfl (by decide) (by decide))
  · exact (ht.column hc h).bind fun _ => (FailsOnly.of_exists (ht.value hv)).bind fun _ => .ok _

/-- A range fails for due reasons only. -/
theorem Meets.failsOnly_range (ht : t.Meets s cs) (hc : c ∈ cs) (h : s.Resolves c)
    {min max : Option Value} (hmin : ∀ v ∈ min, ∃ x, v = .text x) (hmax : ∀ v ∈ max, ∃ x, v = .text x)
    (inclusive : Bool) : FailsOnly (IsDue cs) (t.range c min max inclusive) := by
  have bound {v : Value} (hv : ∃ x, v = .text x) : FailsOnly (IsDue cs) (t.bound v) := by
    obtain ⟨x, rfl⟩ := hv
    exact .of_exists (ht.bound x)
  rw [range]
  split
  · exact .error (isDue_of_operator? rfl (by decide) (by decide))
  · refine (ht.column hc h).bind fun text => ?_
    split
    · exact .error (isDue_of_operator? rfl (by decide) (by decide))
    · exact (bound (hmin _ rfl)).bind fun _ => .ok _
    · exact (bound (hmax _ rfl)).bind fun _ => .ok _
    · refine (bound (hmin _ rfl)).bind fun _ => (bound (hmax _ rfl)).bind fun _ => ?_
      split <;> exact .ok _

/-- **Rendering a well-formed filter fails for due reasons only.** -/
theorem Meets.failsOnly_render (ht : t.Meets s cs) {f : Filter} (hf : f.WellFormed s)
    (hcs : f.columns ⊆ cs) : FailsOnly (IsDue cs) (t.render f) := by
  induction hf with
  | literal => exact .error (isDue_of_operator? rfl (by decide) (by decide))
  | equals hc => exact ht.failsOnly_equals (hcs (List.mem_singleton_self _)) hc (.text _)
  | group _ _ ih => exact (ih fun _ hd => hcs (List.mem_cons_of_mem _ hd)).bind fun _ => .ok _
  | compare hc hv => exact ht.failsOnly_compare _ (hcs (List.mem_singleton_self _)) hc hv
  | and _ _ ihl ihr | or _ _ ihl ihr =>
    obtain ⟨hl, hr⟩ := List.append_subset.1 hcs
    exact (ihl hl).bind fun _ => (ihr hr).bind fun _ => .ok _
  | must _ ih => exact ih hcs
  | mustNot _ ih => exact (ih hcs).bind fun _ => .ok _
  | like hc _ => exact ht.like _ (hcs (List.mem_singleton_self _)) hc
  | wild hc _ _ => exact ht.wild _ (hcs (List.mem_singleton_self _)) hc
  | fuzzy hf _ => exact ht.fuzzy hcs hf
  | range hc hmin hmax => exact ht.failsOnly_range (hcs (List.mem_singleton_self _)) hc hmin hmax _
  | boost => exact .error (isDue_of_operator? rfl (by decide) (by decide))

end Target

/-! ### The targets -/

namespace Sql

/-- A dialect fails on a column only if it cannot be written unquoted. -/
theorem failsOnly_column (d : Dialect) (hc : c ∈ cs) (h : s.Resolves c) :
    FailsOnly (IsDue cs) (d.column c) := by
  by_cases hsafe : c.IsSafe
  · exact .of_exists (exists_column d hsafe)
  · rw [Dialect.column]
    split
    · split
      · exact .ok _
      · exact .error (isDue_unsafeIdentifier hc h hsafe)
    · exact .ok _

/-- Every value of a well-formed filter can be bound. -/
theorem exists_bind {v : Value} (hv : v.IsOperand) : ∃ b, bind v = .ok b := by
  cases hv with
  | text t => exact ⟨_, rfl⟩
  | @number x hx =>
    rw [bind, param, numberParam]
    split
    · exact ⟨_, rfl⟩
    · rw [if_pos hx]
      exact ⟨_, rfl⟩

/-- A dialect fails on a pattern only where it does on the column. -/
theorem failsOnly_like (d : Dialect) (p : String) (hc : c ∈ cs) (h : s.Resolves c) :
    FailsOnly (IsDue cs) (like d c p) := by
  refine (failsOnly_column d hc h).bind fun text => ?_
  cases d <;> exact .ok _

/-- A dialect fails on a likeness only where it does on the column, or where it has none. -/
theorem failsOnly_fuzzy (d : Dialect) {f : Filter} (hcs : f.columns ⊆ cs) (hf : f.WellFormed s) :
    FailsOnly (IsDue cs) (fuzzy d f) := by
  have operand : FailsOnly (IsDue cs) (.error .fuzzyOperand : Except _ (Fragment Json)) :=
    .error (isDue_of_operator? rfl (by decide) (by decide))
  cases hf with
  | @equals c t hc =>
    rw [fuzzy]
    split
    · exact .error (isDue_of_operator? rfl (by decide) (by decide))
    · refine (failsOnly_column d (hcs (List.mem_singleton_self _)) hc).bind fun text => ?_
      cases d with
      | postgresql => exact .ok _
      | mysql => exact .ok _
      | sqlite => exact .error (isDue_of_operator? rfl (by decide) (by decide))
  | _ => exact operand

/-- Every dialect fails for due reasons only. -/
theorem meets (d : Dialect) : d.target.Meets s cs where
  column := failsOnly_column d
  value := exists_bind
  bound x := exists_bind (.text x)
  like := failsOnly_like d
  wild := failsOnly_like d
  fuzzy := failsOnly_fuzzy d

end Sql

namespace PartiQL

/-- PartiQL fails on a column only if it cannot be written unquoted. -/
theorem failsOnly_path (hc : c ∈ cs) (h : s.Resolves c) : FailsOnly (IsDue cs) (path c) := by
  by_cases hsafe : c.IsSafe
  · exact .of_exists ⟨_, hsafe.path_eq⟩
  · rw [path]
    split
    · exact .ok _
    · exact .error (isDue_unsafeIdentifier hc h hsafe)

/-- Every value of a well-formed filter can be written. -/
theorem exists_value {v : Value} (hv : v.IsOperand) : ∃ b, value v = .ok b := by
  cases hv <;> exact ⟨_, rfl⟩

/-- Every text can be written as a bound. -/
theorem exists_bound (x : String) : ∃ b, bound (.text x) = .ok b := by
  rw [bound]
  split <;> exact ⟨_, rfl⟩

/-- PartiQL fails on a pattern where it does on the column, or where the pattern has no shape. -/
theorem failsOnly_like (p : String) (hc : c ∈ cs) (h : s.Resolves c) :
    FailsOnly (IsDue cs) (like c p) := by
  refine (failsOnly_path hc h).bind fun text => ?_
  split
  · exact .error (isDue_of_operator? rfl (by decide) (by decide))
  all_goals exact .ok _

/-- PartiQL fails for due reasons only. -/
theorem meets : target.Meets s cs where
  column := failsOnly_path
  value := exists_value
  bound := exists_bound
  like := failsOnly_like
  wild _ _ _ := .error (isDue_of_operator? rfl (by decide) (by decide))
  fuzzy _ _ := .error (isDue_of_operator? rfl (by decide) (by decide))

end PartiQL

/-- No provider fails on a well-formed filter for any other than a due reason. -/
theorem Provider.failsOnly_render (p : Provider) {f : Filter} (hf : f.WellFormed s) :
    FailsOnly (IsDue f.columns) (p.render f) := by
  cases p with
  | sql d =>
    have hfragment := (Sql.meets d).failsOnly_render hf (List.Subset.refl f.columns)
    exact (hfragment.bind fun _ => .ok _).map
  | dynamodb =>
    have hfragment := PartiQL.meets.failsOnly_render hf (List.Subset.refl f.columns)
    exact (hfragment.bind fun _ => .ok _).map

end SearchFilter
