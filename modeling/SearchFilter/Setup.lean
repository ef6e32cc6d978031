/-
# Faults of a setup

What can be wrong with a schema, with limits or with the name of a provider.
These faults concern whoever configures a filter compiler, not the author of a
query.
-/

import SearchFilter.Schema.Field

namespace SearchFilter

/-- Why a setup is refused. -/
inductive SetupError where
  | duplicateField (name : String) (first second : Kind)
  | emptyFieldName
  | invalidFieldName (name : String)
  | unknownField (name : String)
  | zeroLimit (limit : String)
  | recordExpected
  | objectTypeExpected (type : String)
  | keyExpected
  | unknownProvider (name : String)
deriving DecidableEq, Repr

namespace SetupError

/-- The written name of a fault's class. -/
def name : SetupError → String
  | duplicateField .. => "duplicate_field"
  | emptyFieldName => "empty_field_name"
  | invalidFieldName _ => "invalid_field_name"
  | unknownField _ => "unknown_field"
  | zeroLimit _ => "zero_limit"
  | recordExpected => "extraction"
  | objectTypeExpected _ => "extraction"
  | keyExpected => "extraction"
  | unknownProvider _ => "unknown_provider"

/-- The message of a fault. -/
def message : SetupError → String
  | duplicateField name first second =>
    "duplicate field name '" ++ name ++ "' (declared as " ++ first.name ++ " and " ++
      second.name ++ ")"
  | emptyFieldName => "field names must not be empty"
  | invalidFieldName name =>
    "field name '" ++ name ++ "' must start with a letter or underscore " ++
      "and contain only letters, digits and underscores"
  | unknownField name => "cannot annotate unknown field '" ++ name ++ "'"
  | zeroLimit limit => "limit '" ++ limit ++ "' must be greater than zero"
  | recordExpected => "cannot extract fields: representative record must be an object"
  | objectTypeExpected type =>
    "cannot extract fields: type '" ++ type ++ "' does not serialize as an object"
  | keyExpected => "cannot extract fields: key must be a string"
  | unknownProvider name =>
    "unknown provider '" ++ name ++ "' (expected postgresql, mysql, sqlite or dynamodb)"

end SetupError
end SearchFilter
