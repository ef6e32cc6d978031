/-
# The written form of a filter tree

A filter is an object whose member `op` names the operator, followed by the parts of
the filter. A value is a string, a number or a nested object; an open bound and a
distance that is not given are null.
-/

import SearchFilter.Json.Basic
import SearchFilter.Tree.Basic

namespace SearchFilter

mutual

/-- The written form of a filter. -/
def Filter.toJson : Filter → Json
  | .literal v => .object [("op", .string "literal"), ("value", v.toJson)]
  | .equals c v =>
    .object [("op", .string "equals"), ("column", .string c.name), ("value", v.toJson)]
  | .compare op c v =>
    .object [("op", .string op.name), ("column", .string c.name), ("value", v.toJson)]
  | .and l r => .object [("op", .string "and"), ("left", l.toJson), ("right", r.toJson)]
  | .or l r => .object [("op", .string "or"), ("left", l.toJson), ("right", r.toJson)]
  | .must f => .object [("op", .string "must"), ("operand", f.toJson)]
  | .mustNot f => .object [("op", .string "must_not"), ("operand", f.toJson)]
  | .like c p =>
    .object [("op", .string "like"), ("column", .string c.name), ("pattern", .string p)]
  | .wild c p =>
    .object [("op", .string "wild"), ("column", .string c.name), ("pattern", .string p)]
  | .fuzzy f distance =>
    .object [("op", .string "fuzzy"), ("term", f.toJson),
      ("distance", (distance.map Json.ofNat).getD .null)]
  | .range c min max inclusive =>
    .object [("op", .string "range"), ("column", .string c.name), ("min", boundToJson min),
      ("max", boundToJson max), ("inclusive", .bool inclusive)]
  | .boost f power =>
    .object [("op", .string "boost"), ("operand", f.toJson), ("power", .number (.real power))]

/-- The written form of a value. -/
def Value.toJson : Value → Json
  | .text s => .string s
  | .number x => .number (.real x)
  | .group f => f.toJson

/-- The written form of a bound. -/
def boundToJson : Option Value → Json
  | none => .null
  | some v => v.toJson

end

end SearchFilter
