/-
# The size of a query

Three measures are taken of a query before its grammar is looked at: its length
in bytes of UTF-8, the depth of its brackets, and the number of its terms.
-/

import SearchFilter.Query.Token

namespace SearchFilter
namespace Query

/-- What is measured of a query. -/
inductive Measure where
  | length
  | depth
  | terms
deriving DecidableEq, Repr

/-- The measures in the order in which they are reported. -/
def Measure.all : List Measure := [.length, .depth, .terms]

/-- The size of a query. -/
structure Size where
  length : Nat
  depth : Nat
  terms : Nat
deriving DecidableEq, Repr

namespace Size

/-- One measure of a size. -/
def get (s : Size) : Measure → Nat
  | .length => s.length
  | .depth => s.depth
  | .terms => s.terms

/-- The size of a query. -/
def of (query : String) : Size :=
  let ts := tokens query.toList
  { length := query.utf8ByteSize
    depth := (Depth.ofTokens ts).most
    terms := ts.countP fun t => t.kind.isTerm }

end Size

/-- Every measure is reported. -/
theorem Measure.mem_all (m : Measure) : m ∈ Measure.all := by cases m <;> decide

end Query
end SearchFilter
