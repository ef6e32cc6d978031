/-
# Refused references to a field

A query refers to a field by its name, or to a part of a structured field by a
dotted name. A reference that the schema does not admit is reported with all names
that it does admit.
-/

import SearchFilter.Schema.Basic

namespace SearchFilter

/-- Why a reference is refused. -/
inductive FieldError.Reason where
  | unknown
  | notNested
  | whitespace
deriving DecidableEq, Repr

/-- A refused reference. -/
structure FieldError where
  field : String
  reason : FieldError.Reason
  /-- the names that could have been used -/
  valid : List String
deriving DecidableEq, Repr

namespace FieldError

/-- The written name of a reason. -/
def Reason.name : Reason → String
  | unknown => "unknown"
  | notNested => "not_nested"
  | whitespace => "whitespace"

/-- A reason in words. -/
def Reason.message : Reason → String
  | unknown => "unknown field"
  | notNested => "field does not support nested access"
  | whitespace => "whitespace is not allowed in field names"

/-- The message of a refused reference. -/
def message (e : FieldError) : String :=
  "invalid field '" ++ e.field ++ "' (" ++ e.reason.message ++ "); valid fields are: " ++
    ", ".intercalate e.valid

end FieldError

/-- Refuses a reference against this schema. -/
def Schema.refuse {α : Type} (s : Schema) (field : String) (reason : FieldError.Reason) :
    Except FieldError α := .error ⟨field, reason, s.labels⟩

end SearchFilter
