/-
# Parameters as text

The numbers that a clause compares with are read from words, so that they are rounded doubles,
and those that are bound as integers have at most 63 binary digits. The text of such a number is
read back as the number:

| bound for | parameter | text |
| --- | --- | --- |
| a word, a phrase, a bound of a range | string | the string, escaped |
| `f:>12` | integer | `12` |
| `f:>1e30` | real | `1e+30` |

So the parameters of a query are given back by what is printed of them (`isKept_of_compile`).
-/

import SearchFilter.Proofs.Compiler.Stages
import SearchFilter.Proofs.Grammar.Binding
import SearchFilter.Proofs.Json.RoundTrip
import SearchFilter.Proofs.Render.Clause

namespace SearchFilter

/-- The number of a value is a rounded double, if it is a number. -/
def Value.IsRounded : Value → Prop
  | number x => x.IsRounded
  | _ => True

/-- The parameter of such a value is given back by its text. -/
theorem Value.isKept_parameter {v : Value} (h : v.IsRounded) : v.parameter.IsKept := by
  cases v with
  | text s => exact .string s
  | group f => exact .null
  | number x =>
    rw [parameter]
    split
    · rename_i i hi
      have hlt : i.natAbs < 2 ^ 63 := by
        rw [Double.toInt63?, Option.filter_eq_some_iff, decide_eq_true_eq, Nat.pow_eq] at hi
        exact hi.2
      exact .number (.integer (by omega) (by omega))
    · exact .number (.real h)

/-- The values that a filter binds are given back by their texts. -/
def Filter.BindsKept (f : Filter) : Prop := ∀ v ∈ f.boundValues, v.IsKept

namespace Grammar

/-- Text is no number. -/
theorem isRounded_textValue (s : List Char) : (textValue s).IsRounded := trivial

/-- A word is compared with as the number that it writes. -/
theorem Operand.isRounded_value (o : Operand) : o.value.IsRounded := by
  obtain ⟨s, hs⟩ | ⟨w, x, hx, hvalue⟩ := o.value_cases
  · rw [hs]
    exact isRounded_textValue s
  · rw [hvalue]
    exact Decimal.isRounded_of_finite? hx

/-- What an atom binds is given back by its text. -/
theorem Atom.Tests.bindsKept {k : Column} {a : Atom} {f : Filter} (h : a.Tests k f) :
    f.BindsKept := by
  have htext (s : List Char) : (Filter.equals k (textValue s)).BindsKept := by
    rw [Filter.BindsKept, Filter.boundValues]
    split
    · exact fun v hv => absurd hv List.not_mem_nil
    · exact List.forall_mem_singleton.2 (Value.isKept_parameter (isRounded_textValue s))
  cases h with
  | like | wild => exact List.forall_mem_singleton.2 (.string _)
  | equals | phrase => exact htext _
  | range =>
    intro v hv
    obtain ⟨w, hw, rfl⟩ := List.mem_map.1 hv
    have hbound : ∃ s, w = textValue s := by
      rw [List.mem_append, Option.mem_toList, Option.mem_toList, Option.map_eq_some_iff,
        Option.map_eq_some_iff] at hw
      obtain ⟨s, -, rfl⟩ | ⟨s, -, rfl⟩ := hw
      · exact ⟨s, rfl⟩
      · exact ⟨s, rfl⟩
    obtain ⟨s, rfl⟩ := hbound
    exact Value.isKept_parameter (isRounded_textValue s)
  | @compare _ operand =>
    exact List.forall_mem_singleton.2 (Value.isKept_parameter operand.isRounded_value)

/-- **What a lowered clause binds is given back by its text,** in every predicate. -/
theorem Clause.bindsKept_of_lower {c : Clause} {column : Option Column} {f : Filter}
    (h : c.lower column = .ok f) : f.BindsKept ∧ ∀ g ∈ f.predicates, g.BindsKept := by
  have hnothing {g : Filter} (hg : g.boundValues = []) : g.BindsKept := by
    rw [Filter.BindsKept, hg]
    exact fun v hv => absurd hv List.not_mem_nil
  have hself {g : Filter} (hg : g.isPredicate = true) (hkept : g.BindsKept) :
      g.BindsKept ∧ ∀ g' ∈ g.predicates, g'.BindsKept := by
    rw [Filter.predicates_of_isPredicate hg, List.forall_mem_singleton]
    exact ⟨hkept, hkept⟩
  rw [lower_eq_ok_iff] at h
  induction h with
  | own ha | given ha => exact hself ha.isPredicate ha.bindsKept
  | bareTerm | barePhrase => exact hself rfl (hnothing rfl)
  | fieldGroup _ ih => exact ⟨List.forall_mem_singleton.2 .null, ih.2⟩
  | and _ _ ihl ihr | or _ _ ihl ihr =>
    exact ⟨hnothing rfl, List.forall_mem_append.2 ⟨ihl.2, ihr.2⟩⟩
  | must _ ih | mustNot _ ih => exact ⟨hnothing rfl, ih.2⟩
  | fuzzy _ ih => exact hself rfl ih.1
  | boost _ ih => exact hself rfl (hnothing rfl)

end Grammar

namespace Compiler

/-- **The parameters of a query are given back by their texts.** -/
theorem isKept_of_compile {c : Compiler} {d : Sql.Dialect} {q : String} {clause : Sql.Clause}
    (h : c.compile (.sql d) q = .ok (some (.sql clause))) : ∀ v ∈ clause.params, v.IsKept := by
  obtain ⟨f, hf, hrender⟩ := exists_of_compile h
  obtain ⟨clause', hclause, hr⟩ := map_eq_ok.1 hrender
  obtain rfl := Rendered.sql.inj hr
  obtain ⟨a, ha, hpure⟩ := bind_eq_ok.1 hclause
  obtain rfl := Except.ok.inj hpure
  obtain ⟨clause, -, hlower⟩ := Grammar.exists_clause_of_filter? (passed_of_filter? hf).grammar
  intro v hv
  rw [(Sql.writes_of_render ha).values, List.mem_flatMap] at hv
  obtain ⟨g, hg, hv⟩ := hv
  exact (Grammar.Clause.bindsKept_of_lower hlower).2 g hg v hv

end Compiler
end SearchFilter
