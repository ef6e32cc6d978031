/-
# Fields

A field has a name, a kind, and a mark that says whether a word without a field
is searched in it. Unless it is said otherwise the text fields carry the mark.
Only structured fields have parts that a query can address.

| kind | searched by default | has parts |
| --- | --- | --- |
| `text` | yes | no |
| `structured` | no | yes |
| `number`, `boolean`, `timestamp`, `list`, `unknown` | no | no |
-/

import SearchFilter.Json.Basic

namespace SearchFilter

/-- What a field holds. -/
inductive Kind where
  | text
  | number
  | boolean
  | timestamp
  | structured
  | list
  | unknown
deriving DecidableEq, Repr

namespace Kind

/-- All kinds. -/
def all : List Kind := [.text, .number, .boolean, .timestamp, .structured, .list, .unknown]

/-- The written name of a kind. -/
def name : Kind → String
  | text => "text"
  | number => "number"
  | boolean => "boolean"
  | timestamp => "timestamp"
  | structured => "structured"
  | list => "list"
  | unknown => "unknown"

/-- The kind of a written name. -/
def ofName? (s : String) : Option Kind := all.find? fun k => k.name == s

/-- Whether a query can address parts of the field. -/
def hasParts (k : Kind) : Bool := k == .structured

/-- Whether a field of this kind is searched by default. -/
def searched (k : Kind) : Bool := k == .text

/-- The name of a kind is read as that kind. -/
theorem ofName?_name (k : Kind) : ofName? k.name = some k := by cases k <;> decide +kernel

end Kind

/-- A field of a schema. -/
structure Field where
  name : String
  kind : Kind
  /-- whether a word without a field is searched here -/
  implicit : Bool
deriving DecidableEq, Repr

namespace Field

/-- A field with the mark that its kind has by default. -/
def of (name : String) (kind : Kind) : Field := ⟨name, kind, kind.searched⟩

/-- A field as it is declared: `nested` makes it structured whatever its kind, and
without a mark of its own it takes the one of the kind that results. -/
def declare (name : String) (kind : Kind) (implicit : Option Bool) (nested : Bool) : Field :=
  let kind := if nested then .structured else kind
  ⟨name, kind, implicit.getD kind.searched⟩

/-- Whether a query can address parts of the field. -/
def hasParts (f : Field) : Bool := f.kind.hasParts

/-- How a message lists the field: with `.*` where it has parts. -/
def label (f : Field) : String := if f.hasParts then f.name ++ ".*" else f.name

/-- The members of a field's written form. -/
def toJson (f : Field) : Json :=
  .object [("name", .string f.name), ("kind", .string f.kind.name), ("implicit", .bool f.implicit)]

end Field

namespace Json

/-- A name out of a fixed set: a string, or an object with that one key and no value. -/
def choice? : Json → Option String
  | .string s => some s
  | .object [(s, .null)] => some s
  | _ => none

/-- The parts of a record that may be written as an object, whose unknown keys are
ignored, or as a list in the order of the keys; a part that is left out is `none`. -/
def parts? (keys : List String) : Json → Option (List (Option Json))
  | .object members => some (keys.map fun k => (Json.object members).get? k)
  | .array items =>
    if items.length ≤ keys.length then
      some (items.map some ++ List.replicate (keys.length - items.length) none)
    else none
  | _ => none

end Json

namespace Field

/-- Reads the written form of a field: a name, and perhaps a kind, a mark (which
may be null) and whether it is nested. -/
def ofJson? (v : Json) : Option Field := do
  match ← v.parts? ["name", "kind", "implicit", "nested"] with
  | [name, kind, implicit, nested] =>
    let name ← (← name).text?
    let kind ← match kind with
      | none => some .unknown
      | some k => k.choice?.bind Kind.ofName?
    let implicit ← match implicit with
      | none => some none
      | some .null => some none
      | some b => b.bool?.map some
    let nested ← match nested with
      | none => some false
      | some b => b.bool?
    some (declare name kind implicit nested)
  | _ => none

/-- **Being nested wins over the declared kind,** and decides the mark. -/
theorem declare_nested (name : String) (kind : Kind) :
    declare name kind none true = .of name .structured := rfl

end Field
end SearchFilter
