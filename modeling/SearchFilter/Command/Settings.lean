/-
# Settings

Settings hold the limits and the fields, in a TOML file:

    [limits]
    max_term_count = 100

    [[fields]]
    name = "title"
    kind = "text"

Limits that are not given keep their standard, keys that are not known are passed
over, and without `fields` there are none. Limits and fields may also be arrays of
their values in the order of the keys, and what such an array has beyond them is
passed over as well.
-/

import SearchFilter.Compiler
import SearchFilter.Toml.Document
import SearchFilter.Toml.Printer

namespace SearchFilter
namespace Command

/-- The settings of a command. -/
structure Settings where
  limits : Query.Limits
  fields : List Field
deriving DecidableEq, Repr

namespace Settings

/-- The settings without a file. -/
def standard : Settings := ⟨Query.Limits.standard, []⟩

/-- A record of so many parts without what an array has beyond them. -/
def trimmed (parts : Nat) : Json → Json
  | .array items => .array (items.take parts)
  | v => v

/-- Reads limits. -/
def limits? : Option Json → Option Query.Limits
  | none => some Query.Limits.standard
  | some v => Query.Limits.ofJson? (trimmed 3 v)

/-- Reads one field. -/
def field? (v : Json) : Option Field := Field.ofJson? (trimmed 4 v)

/-- Reads the fields, which have to be an array. -/
def fields? : Option Json → Option (List Field)
  | none => some []
  | some (.array items) => items.mapM field?
  | some _ => none

/-- Reads a TOML text. -/
def ofToml? (text : String) : Option Settings := do
  let document ← Toml.parse? text
  some ⟨← limits? (document.get? "limits"), ← fields? (document.get? "fields")⟩

/-- The limits as TOML. -/
def limitsToToml (l : Query.Limits) : String :=
  "[limits]\n" ++ "".intercalate (Query.Measure.all.map fun m =>
    m.key ++ " = " ++ toString (l.get m) ++ "\n")

/-- A field as TOML. -/
def fieldToToml (f : Field) : String :=
  let quoted (s : String) : String := String.ofList (Toml.quote s.toList)
  "[[fields]]\nname = " ++ quoted f.name ++ "\nkind = " ++ quoted f.kind.name ++
    "\nimplicit = " ++ (if f.implicit then "true" else "false") ++ "\n"

/-- The settings as TOML, tables one blank line apart. -/
def toToml (s : Settings) : String :=
  match s.fields with
  | [] => "fields = []\n\n" ++ limitsToToml s.limits
  | fs => "\n".intercalate (limitsToToml s.limits :: fs.map fieldToToml)

/-- The settings as JSON. -/
def toJson (s : Settings) : Json :=
  .object [("limits", s.limits.toJson), ("fields", .array (s.fields.map Field.toJson))]

end Settings
end Command
end SearchFilter
