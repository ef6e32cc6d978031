/-
# What a target cannot express

A filter that a target has no words for is refused with the name of the operator
concerned and a remark for the author of the query.
-/

import SearchFilter.Number.Notation

namespace SearchFilter

/-- Why a filter cannot be rendered. -/
inductive RenderError where
  /-- a value without a column -/
  | bareValue
  /-- a relevance factor -/
  | boost
  /-- `null` is not ordered; the operator is a comparison or a range -/
  | unordered (operator : String) (column : String)
  /-- a range without bounds -/
  | openRange
  /-- a group where a plain value has to stand -/
  | group
  /-- a number that is not finite -/
  | number (x : Double)
  /-- fuzzy matching of anything but one word in one column -/
  | fuzzyOperand
  /-- fuzzy matching of `null` -/
  | fuzzyNull
  /-- a target without fuzzy matching -/
  | noFuzzy (target : String)
  /-- a target without a wildcard for one character -/
  | singleWildcard
  /-- a pattern with a wildcard in its middle -/
  | innerWildcard (pattern : String)
  /-- a name that cannot be written unquoted -/
  | unsafeIdentifier (identifier : String)
deriving DecidableEq, Repr

namespace RenderError

/-- The text of a number that is not finite; finite ones are written in full. -/
def numberText : Double → String
  | .nan => "NaN"
  | .infinite false => "inf"
  | .infinite true => "-inf"
  | .finite b m e => String.ofList (Decimal.Layout.write ⟨none, false, true, .up⟩ b m e)

/-- The operator that is not supported; an identifier belongs to none. -/
def operator? : RenderError → Option String
  | bareValue => some "literal"
  | boost => some "boost"
  | unordered operator _ => some operator
  | openRange => some "range"
  | group => some "group"
  | number _ => some "number"
  | fuzzyOperand => some "fuzzy"
  | fuzzyNull => some "fuzzy"
  | noFuzzy _ => some "fuzzy"
  | singleWildcard => some "wildcard"
  | innerWildcard _ => some "wildcard"
  | unsafeIdentifier _ => none

/-- The remark on an unsupported operator. -/
def remark : RenderError → String
  | bareValue => "a bare value needs a field; write it as field:value"
  | boost =>
    "boosting affects relevance ranking and has no filter equivalent; remove the ^ suffix"
  | unordered _ column => "'" ++ column ++ "' cannot be ordered against null"
  | openRange => "a range needs at least one bound; [* TO *] matches everything"
  | group => "a grouped clause can only be matched with field:(...)"
  | number x => numberText x ++ " cannot be bound"
  | fuzzyOperand => "fuzzy matching applies to a single field:term"
  | fuzzyNull => "fuzzy matching against null is undefined"
  | noFuzzy target =>
    target ++ " has no fuzzy matching; use wildcards such as term* instead"
  | singleWildcard => "PartiQL has no single-character wildcard; use * instead of ?"
  | innerWildcard pattern =>
    "'" ++ pattern ++ "' has no PartiQL equivalent; " ++
      "wildcards are only supported at the start or end"
  | unsafeIdentifier identifier => "unsafe identifier '" ++ identifier ++ "'"

/-- The message of an error. -/
def message (e : RenderError) : String :=
  match e.operator? with
  | some operator => "unsupported " ++ operator ++ ": " ++ e.remark
  | none => e.remark

end RenderError
end SearchFilter
