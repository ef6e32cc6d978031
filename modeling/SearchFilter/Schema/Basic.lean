/-
# Schemas

A schema is a list of fields whose names are identifiers and pairwise distinct.
The type carries both facts; `Schema.ofFields` establishes them for a list of
fields or names the first field that breaks one:

| the first defective field | fault |
| --- | --- |
| has a blank name | `emptyFieldName` |
| has a name that is no identifier | `invalidFieldName` |
| has the name of an earlier field | `duplicateField`, with both kinds |
-/

import SearchFilter.Setup
import SearchFilter.Text.Blank
import SearchFilter.Text.Identifier

namespace SearchFilter

/-- The fields that a query may refer to, in the order of their declaration. -/
structure Schema where
  fields : List Field
  named : ∀ f ∈ fields, Text.isIdentifier f.name.toList = true
  distinct : (fields.map Field.name).Nodup

namespace Schema

/-- What is wrong with a field that is declared after others. -/
def defect? (before : List Field) (f : Field) : Option SetupError :=
  if Text.allBlank f.name.toList then some .emptyFieldName
  else if !Text.isIdentifier f.name.toList then some (.invalidFieldName f.name)
  else (before.find? fun g => g.name == f.name).map fun g => .duplicateField f.name g.kind f.kind

/-- The defect of the first defective field. -/
def firstDefect? : List Field → List Field → Option SetupError
  | _, [] => none
  | before, f :: rest => (defect? before f).or (firstDefect? (before ++ [f]) rest)

/-- A field has no fault if its name is an identifier that no earlier field has. -/
theorem defect?_eq_none_iff {before : List Field} {f : Field} :
    defect? before f = none ↔
      Text.isIdentifier f.name.toList = true ∧ f.name ∉ before.map Field.name := by
  unfold defect?
  split
  · rename_i hb
    constructor
    · simp
    · rintro ⟨hi, _⟩
      have h0 := Text.isIdentifier_ne_nil hi
      cases hc : f.name.toList with
      | nil => exact absurd hc h0
      | cons c r =>
        rw [hc] at hb hi
        have hb : Text.isBlank c = true := Text.allBlank_iff.1 hb c (by simp)
        have hn : Text.isNameStart c = true := by
          simp only [Text.isIdentifier, Bool.and_eq_true] at hi; exact hi.1
        exact absurd hb (by simp [Text.isBlank_eq_false_of_isNamePart
          (Text.isNamePart_of_isNameStart hn)])
  · split
    · rename_i hi; simp_all
    · rename_i hi
      simp only [Option.map_eq_none_iff, List.find?_eq_none, beq_iff_eq]
      simp_all [List.mem_map]

/-- No field has a fault if all names are identifiers and no name comes twice, nor is it the name of
a field before them. -/
theorem firstDefect?_eq_none_iff {before fs : List Field} :
    firstDefect? before fs = none ↔
      (∀ f ∈ fs, Text.isIdentifier f.name.toList = true) ∧ (fs.map Field.name).Nodup ∧
        ∀ f ∈ fs, f.name ∉ before.map Field.name := by
  induction fs generalizing before with
  | nil => simp [firstDefect?]
  | cons f rest ih =>
    rw [firstDefect?, Option.or_eq_none_iff, defect?_eq_none_iff, ih]
    simp only [List.map_append, List.map_cons, List.map_nil, List.mem_append, List.not_mem_nil,
      or_false, List.nodup_cons, List.mem_cons, forall_eq_or_imp]
    constructor
    · rintro ⟨⟨h1, h2⟩, h3, h4, h5⟩
      refine ⟨⟨h1, h3⟩, ⟨?_, h4⟩, h2, fun g hg hb => h5 g hg (.inl hb)⟩
      intro hf
      obtain ⟨g, hg, he⟩ := List.mem_map.1 hf
      exact h5 g hg (.inr he)
    · rintro ⟨⟨h1, h3⟩, ⟨h4, h5⟩, h2, h6⟩
      refine ⟨⟨h1, h2⟩, h3, h5, fun g hg hb => ?_⟩
      rcases hb with hb | hb
      · exact h6 g hg hb
      · exact h4 (List.mem_map.2 ⟨g, hg, hb⟩)

/-- The schema of a list of fields, or the fault of its first defective field. -/
def ofFields (fs : List Field) : Except SetupError Schema :=
  match h : firstDefect? [] fs with
  | some e => .error e
  | none => .ok ⟨fs, (firstDefect?_eq_none_iff.1 h).1, (firstDefect?_eq_none_iff.1 h).2.1⟩

/-- The field of a name. -/
def get? (s : Schema) (name : String) : Option Field := s.fields.find? fun f => f.name == name

/-- The fields that a word without a field is searched in, in order. -/
def implicitFields (s : Schema) : List Field := s.fields.filter Field.implicit

/-- The field that binds a value without one: the first implicit field, or else
the first field. -/
def defaultField? (s : Schema) : Option String :=
  (s.implicitFields.head?.or s.fields.head?).map Field.name

/-- The fields as messages list them. -/
def labels (s : Schema) : List String := s.fields.map Field.label

/-- A name that is looked up is the name of the field that is found. -/
theorem name_of_get? {s : Schema} {n : String} {f : Field} (h : s.get? n = some f) :
    f.name = n := by
  simpa using List.find?_some h

/-- The field of a name is a field of the schema. -/
theorem mem_of_get? {s : Schema} {n : String} {f : Field} (h : s.get? n = some f) :
    f ∈ s.fields := List.mem_of_find?_eq_some h

end Schema
end SearchFilter
