/-
# Drafts of a schema

A draft is a list of fields together with marks that are applied when the schema
is built: first the fields that are said to be nested, then the fields that are
said to be searched or not, each in the order of the marks. A mark concerns the
first field of its name; a mark for a name that no field has is a fault, and it is
reported before any fault of the fields themselves.

A nested mark changes the kind alone. Whether the field is searched by default
was settled when it was declared.
-/

import SearchFilter.Schema.Basic

namespace SearchFilter

/-- Fields and marks out of which a schema is built. -/
structure Schema.Draft where
  fields : List Field
  nested : List String
  implicit : List (String × Bool)

namespace Schema.Draft

/-- A draft of these fields, without marks. -/
def ofFields (fs : List Field) : Draft := ⟨fs, [], []⟩

/-- The draft without fields and marks. -/
def empty : Draft := ofFields []

/-- The draft with one more field. -/
def add (d : Draft) (f : Field) : Draft := { d with fields := d.fields ++ [f] }

/-- The draft with a mark that a field is nested. -/
def markNested (d : Draft) (name : String) : Draft := { d with nested := d.nested ++ [name] }

/-- The draft with a mark that a field is searched by default, or is not. -/
def markImplicit (d : Draft) (name : String) (implicit : Bool) : Draft :=
  { d with implicit := d.implicit ++ [(name, implicit)] }

/-- Changes the first field of a name. -/
def alter (name : String) (change : Field → Field) : List Field → Except SetupError (List Field)
  | [] => .error (.unknownField name)
  | f :: rest =>
    if f.name == name then .ok (change f :: rest)
    else (alter name change rest).map (f :: ·)

/-- The fields after the nested marks and then the other marks. -/
def marked (d : Draft) : Except SetupError (List Field) := do
  let fs ← d.nested.foldlM (fun fs name => alter name (fun f => { f with kind := .structured }) fs)
    d.fields
  d.implicit.foldlM (fun fs m => alter m.1 (fun f => { f with implicit := m.2 }) fs) fs

/-- The schema of a draft. -/
def build (d : Draft) : Except SetupError Schema := d.marked.bind Schema.ofFields

/-- **A mark finds its field exactly when some field has the name.** -/
theorem alter_eq_error_iff {name : String} {change : Field → Field} {fs : List Field} :
    alter name change fs = .error (.unknownField name) ↔ name ∉ fs.map Field.name := by
  induction fs with
  | nil => simp [alter]
  | cons f rest ih =>
    by_cases h : f.name = name
    · simp [alter, h]
    · cases hr : alter name change rest with
      | error e => simp_all [alter, Except.map, Ne.symm]
      | ok gs => simp_all [alter, Except.map]

end Schema.Draft
end SearchFilter
