/-
# Errors of a query

A query can be refused at five stages: for its size, for a field reference, by the
grammar, and by the target, which may lack words for an operator or not take a name.
All of them are for the author of the query to mend.
-/

import SearchFilter.Grammar.Position
import SearchFilter.Query.Limits
import SearchFilter.Render.Error
import SearchFilter.Schema.Lookup

namespace SearchFilter

/-- Why a query is refused. -/
inductive QueryError where
  | limits (violations : List Query.Violation)
  | grammar (e : Grammar.SyntaxError)
  | field (e : FieldError)
  | render (e : RenderError)
deriving DecidableEq, Repr

namespace QueryError

/-- The written name of an error's class. -/
def name : QueryError → String
  | limits _ => "limit_exceeded"
  | grammar _ => "syntax"
  | field _ => "invalid_field"
  | render e => if e.operator?.isSome then "unsupported_operator" else "unsafe_identifier"

/-- The message of an error. -/
def message : QueryError → String
  | limits vs => "query rejected: " ++ "; ".intercalate (vs.map Query.Violation.message)
  | grammar e => "syntax error: " ++ e.message
  | field e => e.message
  | render e => e.message

end QueryError
end SearchFilter
