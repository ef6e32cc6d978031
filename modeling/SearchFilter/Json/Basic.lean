/-
# JSON values

A JSON value with the members of an object in the order in which they are
written. A number is kept as an integer where it is written as one and fits 64
bits, and as the nearest double otherwise; minus zero is a double.
-/

import SearchFilter.Number.Double

namespace SearchFilter

/-- A JSON number. -/
inductive Json.Number where
  | integer (i : Int)
  | real (x : Double)
deriving DecidableEq, Repr

/-- A JSON value. -/
inductive Json where
  | null
  | bool (b : Bool)
  | number (n : Json.Number)
  | string (s : String)
  | array (items : List Json)
  | object (members : List (String × Json))

namespace Json

/-- The double nearest to a number. -/
def Number.toDouble : Number → Double
  | .integer i => .ofInt i
  | .real x => x

/-- The member of an object under a key, the last one where the key is repeated. -/
def get? (key : String) : Json → Option Json
  | .object members => (members.reverse.find? (·.1 == key)).map (·.2)
  | _ => none

/-- The text of a string value. -/
def text? : Json → Option String
  | .string s => some s
  | _ => none

/-- The truth value of a boolean. -/
def bool? : Json → Option Bool
  | .bool b => some b
  | _ => none

/-- The elements of an array. -/
def items? : Json → Option (List Json)
  | .array items => some items
  | _ => none

/-- The members of an object, in order. -/
def members? : Json → Option (List (String × Json))
  | .object members => some members
  | _ => none

/-- The integers from 0 up to and without `2 ^ 64`. -/
def nat64? : Json → Option Nat
  | .number (.integer i) => if 0 ≤ i ∧ i < Int.pow 2 64 then some i.toNat else none
  | _ => none

/-- An integer value. -/
def ofNat (n : Nat) : Json := .number (.integer n)

/-- A member whose key is already there takes the place of the first of that key
and keeps the value of the last. -/
def put (members : List (String × Json)) (key : String) (value : Json) : List (String × Json) :=
  if members.any (·.1 == key) then
    members.map fun m => if m.1 == key then (key, value) else m
  else members ++ [(key, value)]

end Json
end SearchFilter
