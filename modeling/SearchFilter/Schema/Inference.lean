/-
# Fields inferred from data

The fields of a schema can be read off a record, off a mapping from keys to
values, or off a JSON schema that describes a record.

| value of a record | kind |
| --- | --- |
| string, number, boolean | `text`, `number`, `boolean` |
| object, array, null | `structured`, `list`, `unknown` |

A property of a JSON schema is resolved through references into `$defs` and
through unions: the first type other than `null`, or the first option whose type is
not `null`. At most nine schemas are looked at for one property, so definitions that
refer to themselves come out as `unknown`.
-/

import SearchFilter.Json.Printer
import SearchFilter.Schema.Draft

namespace SearchFilter
namespace Schema

/-- The kind of a field with such a value. -/
def kindOfValue : Json → Kind
  | .string _ => .text
  | .number _ => .number
  | .bool _ => .boolean
  | .object _ => .structured
  | .array _ => .list
  | .null => .unknown

namespace Draft

/-- The fields of a record, which has to be an object. -/
def ofRecord : Json → Except SetupError Draft
  | .object members => .ok (ofFields (members.map fun m => Field.of m.1 (kindOfValue m.2)))
  | _ => .error .recordExpected

/-- The name that a key of a mapping gives to a field: booleans and numbers are
written out, and nothing else but a string can be a name. -/
def nameOfKey? : Json → Option String
  | .string s => some s
  | .bool true => some "true"
  | .bool false => some "false"
  | .number n => some (String.ofList n.write)
  | _ => none

/-- The fields of a mapping. A name that comes twice keeps its first place and takes
the last value. -/
def ofEntries (entries : List (Json × Json)) : Except SetupError Draft := do
  let members ← entries.foldlM (fun members e =>
    match nameOfKey? e.1 with
    | some name => .ok (Json.put members name e.2)
    | none => .error .keyExpected) []
  ofRecord (.object members)

end Draft

/-- The schema among the definitions that a reference names by its last segment. -/
def definition? (defs : Json) (reference : String) : Option Json :=
  defs.get? (String.ofList ((reference.toList.reverse.takeWhile (· != '/')).reverse))

/-- The type that a schema states: the first one other than `null` in a list. -/
def statedType? (schema : Json) : Option String :=
  match schema.get? "type" with
  | some (.string t) => some t
  | some (.array types) => (types.filterMap Json.text?).find? (· != "null")
  | _ => none

/-- The first option of a union that is not of type `null`. -/
def option? (schema : Json) (key : String) : Option Json := do
  let options ← (← schema.get? key).items?
  options.find? fun o => (o.get? "type").bind Json.text? != some "null"

/-- The kind that a JSON schema describes; the number bounds the schemas that are
looked at. -/
def kindOfSchema (defs : Json) : Nat → Json → Kind
  | 0, _ => .unknown
  | bound + 1, schema =>
    match (schema.get? "$ref").bind Json.text? with
    | some reference => ((definition? defs reference).map (kindOfSchema defs bound)).getD .unknown
    | none =>
      match statedType? schema with
      | some "string" =>
        match (schema.get? "format").bind Json.text? with
        | some "date-time" => .timestamp
        | some "date" => .timestamp
        | _ => .text
      | some "integer" => .number
      | some "number" => .number
      | some "boolean" => .boolean
      | some "object" => .structured
      | some "array" => .list
      | _ =>
        match (option? schema "anyOf").or (option? schema "oneOf") with
        | some o => kindOfSchema defs bound o
        | none =>
          if (schema.get? "enum").isSome || (schema.get? "const").isSome then .text else .unknown

/-- The field of a property. Two annotations override what the schema says: one that
the field is nested, one whether it is searched by default. -/
def fieldOfProperty (defs : Json) (name : String) (property : Json) : Field :=
  let kind :=
    if (property.get? "x-sieve-nested").bind Json.bool? = some true then .structured
    else kindOfSchema defs 9 property
  let field := Field.of name kind
  match (property.get? "x-sieve-implicit").bind Json.bool? with
  | some b => { field with implicit := b }
  | none => field

/-- The fields of the JSON schema of a named type, which has to list properties. -/
def Draft.ofJsonSchema (type : String) (root : Json) : Except SetupError Draft :=
  let defs := (root.get? "$defs").getD .null
  match (root.get? "properties").bind Json.members? with
  | some properties => .ok (ofFields (properties.map fun m => fieldOfProperty defs m.1 m.2))
  | none => .error (.objectTypeExpected type)

/-- A reference is resolved by its last segment, and `null` steps aside in a union. -/
example : kindOfSchema (.object [("A", .object [("type", .string "integer")])]) 9
    (.object [("anyOf", .array [.object [("type", .string "null")],
      .object [("$ref", .string "#/$defs/A")]])]) = .number := by decide +kernel

end Schema
end SearchFilter
