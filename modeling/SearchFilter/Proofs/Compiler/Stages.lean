/-
# The stages of the compiler

A query that is accepted has passed every stage: its size is within the limits, the
grammar has read its expanded text, and the schema has the columns of the filter.
-/

import SearchFilter.Compiler
import SearchFilter.Proofs.Grammar.Outline
import SearchFilter.Proofs.Query.Unfinished

namespace SearchFilter
namespace Compiler

open Grammar (FieldText)
open Query

/-- The implicit fields by name. -/
def implicitNames (c : Compiler) : List (List Char) :=
  (c.schema.implicitFields.map Field.name).map String.toList

/-- Each implicit field has its name. -/
theorem length_implicitNames (c : Compiler) :
    c.implicitNames.length = c.schema.implicitFields.length := by simp [implicitNames]

/-- The name of an implicit field is that of a field. -/
theorem exists_field_of_mem_implicitNames {c : Compiler} {f : List Char}
    (h : f ∈ c.implicitNames) : ∃ g ∈ c.schema.fields, g.name.toList = f := by
  simp only [implicitNames, Schema.implicitFields, List.mem_map, List.mem_filter] at h
  obtain ⟨_, ⟨field, ⟨hmem, -⟩, rfl⟩, rfl⟩ := h
  exact ⟨field, hmem, rfl⟩

/-- The names of implicit fields are field names of the grammar. -/
theorem fieldText_of_mem_implicitNames {c : Compiler} {f : List Char}
    (h : f ∈ c.implicitNames) : FieldText f := by
  obtain ⟨field, hmem, rfl⟩ := exists_field_of_mem_implicitNames h
  exact .plain (c.schema.named field hmem)

/-- With implicit fields a query is expanded token by token. -/
theorem toList_expand_of_ne_nil {c : Compiler} (h : c.implicitNames ≠ []) (q : String) :
    (c.expand q).toList = expandFrom c.implicitNames none [] (tokens q.toList) := by
  have hne : (c.schema.implicitFields.map Field.name).isEmpty = false := by
    cases hf : c.schema.implicitFields.map Field.name with
    | nil => simp [implicitNames, hf] at h
    | cons f fs => rfl
  rw [Compiler.expand, Query.expand, hne]
  exact String.toList_ofList

/-- Without implicit fields the query is read as it is. -/
theorem expand_of_nil {c : Compiler} (h : c.implicitNames = []) (q : String) :
    c.expand q = q := by
  have hnil : c.schema.implicitFields.map Field.name = [] := by
    simpa [implicitNames] using h
  rw [Compiler.expand, hnil, Query.expand_nil]

/-- What an accepted query has passed. -/
structure Passed (c : Compiler) (q : String) (f : Option Filter) : Prop where
  size : ∀ m, (Size.of q).get m ≤ c.limits.get m
  grammar : Grammar.filter? c.defaultColumn? (c.expand q) = .ok f
  columns : ∀ g ∈ f, g.checkColumns c.schema = .ok ()

/-- A query that has been read has passed every stage. -/
theorem passed_of_filter? {c : Compiler} {q : String} {f : Option Filter}
    (h : c.filter? q = .ok f) : c.Passed q f := by
  simp only [filter?, bind_eq_ok, mapError_eq_ok] at h
  obtain ⟨_, hsize, _, -, g, hg, h⟩ := h
  have hmeasure : ∀ m, (Size.of q).get m ≤ c.limits.get m := by
    obtain ⟨s, hs, -⟩ := map_eq_ok.1 hsize
    exact (Limits.le_of_check hs).2
  cases g with
  | none =>
    obtain rfl := pure_eq_ok.1 h
    exact ⟨hmeasure, hg, by simp⟩
  | some g =>
    obtain ⟨_, hcolumns, hpure⟩ := bind_eq_ok.1 h
    obtain rfl := pure_eq_ok.1 hpure
    refine ⟨hmeasure, hg, ?_⟩
    rintro _ ⟨⟩
    exact mapError_eq_ok.1 hcolumns

/-- The references of a query that has been read are to known fields. -/
theorem checkReferences_of_filter? {c : Compiler} {q : String} {f : Option Filter}
    (h : c.filter? q = .ok f) : c.checkReferences (c.expand q) = .ok () := by
  simp only [filter?, bind_eq_ok, mapError_eq_ok] at h
  obtain ⟨_, -, _, hreferences, -⟩ := h
  exact hreferences

/-- A query that is compiled has a filter, and the provider renders it. -/
theorem exists_of_compile {c : Compiler} {p : Provider} {q : String} {r : Rendered}
    (h : c.compile p q = .ok (some r)) :
    ∃ f, c.filter? q = .ok (some f) ∧ p.render f = .ok r := by
  obtain ⟨f, hf, h⟩ := bind_eq_ok.1 h
  cases f with
  | none => exact absurd (pure_eq_ok.1 h) nofun
  | some f =>
    obtain ⟨r', hr, hsome⟩ := map_eq_ok.1 h
    obtain rfl := Option.some.inj hsome
    exact ⟨f, hf, mapError_eq_ok.1 hr⟩

/-! ### Single compilers -/

/-- Three text fields and a structured one. -/
def sampleFields : List Field := ["f", "g", "h"].map (Field.of · .text) ++ [.of "m" .structured]

/-- The compiler of the first `n` fields of the sample. -/
def sample (n : Nat) (limits : Limits) (pos : limits.fault? = none) : Compiler where
  schema :=
    { fields := sampleFields.take n
      named := by
        have h : ∀ f ∈ sampleFields, Text.isIdentifier f.name.toList = true := by decide +kernel
        exact fun f hf => h f (List.mem_of_mem_take hf)
      distinct := by
        have h : (sampleFields.map Field.name).Nodup := by decide +kernel
        exact h.sublist ((List.take_sublist n sampleFields).map Field.name) }
  limits := limits
  limits_pos := pos

/-- What the filter of a query is measured as, if there is one. -/
def measured {α : Type} (c : Compiler) (q : String) (g : Filter → α) : Option α :=
  (c.filter? q).toOption.bind fun f => f.map g

/-- What is measured is the filter of a query. -/
theorem exists_of_measured {α : Type} {c : Compiler} {q : String} {g : Filter → α} {x : α}
    (h : c.measured q g = some x) : ∃ f, c.filter? q = .ok (some f) ∧ g f = x := by
  rw [measured] at h
  cases hf : c.filter? q with
  | error e => simp [hf, Except.toOption] at h
  | ok f =>
    cases f with
    | none => simp [hf, Except.toOption] at h
    | some f => exact ⟨f, rfl, by simpa [hf, Except.toOption] using h⟩

/-- The text that a query is compiled to, if there is one. -/
def compiledText (c : Compiler) (p : Provider) (q : String) : Option String :=
  (c.compile p q).toOption.bind fun r => r.map Rendered.text

/-- A compiled text is that of what is rendered. -/
theorem exists_of_compiledText {c : Compiler} {p : Provider} {q x : String}
    (h : c.compiledText p q = some x) : ∃ r, c.compile p q = .ok (some r) ∧ r.text = x := by
  rw [compiledText] at h
  cases hr : c.compile p q with
  | error e => simp [hr, Except.toOption] at h
  | ok r =>
    cases r with
    | none => simp [hr, Except.toOption] at h
    | some r => exact ⟨r, rfl, by simpa [hr, Except.toOption] using h⟩

end Compiler
end SearchFilter
