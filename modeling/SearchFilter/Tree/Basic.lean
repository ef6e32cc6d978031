/-
# Filter trees

What a query means, between the grammar and the renderers. A leaf tests one column;
`and`, `or`, `must` and `mustNot` combine filters.

| leaf | meaning |
| --- | --- |
| `literal v` | a value without a column |
| `equals c v` | the column equals a value, or its values satisfy a group |
| `compare op c v` | the column is ordered against a value |
| `like c p`, `wild c p` | the column matches a raw pattern with `*`, or with `?` alone |
| `range c min max` | the column lies between two bounds, either of which may be open |

A group is a filter that stands as the value of `equals`; its columns are already
bound. `fuzzy` and `boost` modify a filter.
-/

import SearchFilter.Number.Double
import SearchFilter.Text.Case

namespace SearchFilter

/-- The name of a column, or of a part of one behind a point. -/
structure Column where
  name : String
deriving DecidableEq, Repr

/-- A column's base, and its part where the name has a point: the first point
separates them. -/
def Column.split (c : Column) : String × Option String :=
  match c.name.toList.span (· != '.') with
  | (base, _ :: part) => (String.ofList base, some (String.ofList part))
  | (_, []) => (c.name, none)

/-- The four orders. -/
inductive Comparison where
  | greater
  | less
  | greaterEq
  | lessEq
deriving DecidableEq, Repr

/-- The written name of an order. -/
def Comparison.name : Comparison → String
  | greater => "greater"
  | less => "less"
  | greaterEq => "greater_eq"
  | lessEq => "less_eq"

/-- The sign of an order. -/
def Comparison.sign : Comparison → String
  | greater => ">"
  | less => "<"
  | greaterEq => ">="
  | lessEq => "<="

mutual

/-- A filter. -/
inductive Filter where
  | literal (value : Value)
  | equals (column : Column) (value : Value)
  | compare (op : Comparison) (column : Column) (value : Value)
  | and (left right : Filter)
  | or (left right : Filter)
  | must (operand : Filter)
  | mustNot (operand : Filter)
  | like (column : Column) (pattern : String)
  | wild (column : Column) (pattern : String)
  | fuzzy (term : Filter) (distance : Option Nat)
  | range (column : Column) (min max : Option Value) (inclusive : Bool)
  | boost (operand : Filter) (power : Double)

/-- What a column is tested against. -/
inductive Value where
  | text (s : String)
  | number (x : Double)
  | group (f : Filter)

end

/-- Whether a value is the word `null`, in any case: it stands for no value. -/
def Value.isNull : Value → Bool
  | .text s => Text.sameWord s.toList ['n', 'u', 'l', 'l']
  | _ => false

namespace Filter

/-- The name of a filter's outermost operator. -/
def operator : Filter → String
  | literal _ => "literal"
  | equals .. => "equals"
  | compare op .. => op.name
  | and .. => "and"
  | or .. => "or"
  | must _ => "must"
  | mustNot _ => "must_not"
  | like .. => "like"
  | wild .. => "wild"
  | fuzzy .. => "fuzzy"
  | range .. => "range"
  | boost .. => "boost"

/-- The number of nodes of a filter, with those of its groups. -/
def nodeCount : Filter → Nat
  | equals _ (.group f) => 1 + f.nodeCount
  | and l r => 1 + l.nodeCount + r.nodeCount
  | or l r => 1 + l.nodeCount + r.nodeCount
  | must f => 1 + f.nodeCount
  | mustNot f => 1 + f.nodeCount
  | boost f _ => 1 + f.nodeCount
  | fuzzy f _ => 1 + f.nodeCount
  | _ => 1

end Filter

/-- A point separates base and part, and only the first one does. -/
example : (Column.mk "meta.team.x").split = ("meta", some "team.x") ∧
    (Column.mk "name").split = ("name", none) := by decide +kernel

end SearchFilter
