/-
# The measures of a filter

Two measures say how large a filter is:

| measure | of a leaf | of a group | of `and`, `or` |
| --- | --- | --- | --- |
| `leafCount` | 1 | that of its inside | the sum |
| `groupDepth` | 0 | one more than its inside | the maximum |

The other nodes have the measures of their operands.
-/

import SearchFilter.Tree.Basic

namespace SearchFilter
namespace Filter

/-- The number of leaves: all nodes other than `and`, `or`, `must`, `mustNot`, `fuzzy`,
`boost` and groups. -/
def leafCount : Filter → Nat
  | equals _ (.group f) => f.leafCount
  | and l r => l.leafCount + r.leafCount
  | or l r => l.leafCount + r.leafCount
  | must f => f.leafCount
  | mustNot f => f.leafCount
  | boost f _ => f.leafCount
  | fuzzy f _ => f.leafCount
  | _ => 1

/-- The greatest number of groups on a path from the root. -/
def groupDepth : Filter → Nat
  | equals _ (.group f) => f.groupDepth + 1
  | and l r => max l.groupDepth r.groupDepth
  | or l r => max l.groupDepth r.groupDepth
  | must f => f.groupDepth
  | mustNot f => f.groupDepth
  | boost f _ => f.groupDepth
  | fuzzy f _ => f.groupDepth
  | _ => 0

end Filter
end SearchFilter
