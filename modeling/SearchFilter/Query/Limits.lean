/-
# Limits on the size of a query

Each measure of a query has a limit, which is not zero. A query is refused for all
limits that it exceeds, together.
-/

import SearchFilter.Query.Size
import SearchFilter.Setup

namespace SearchFilter
namespace Query

/-- The greatest sizes that are accepted. -/
structure Limits where
  length : Nat
  depth : Nat
  terms : Nat
deriving DecidableEq, Repr

/-- A limit that a query exceeds. -/
structure Violation where
  measure : Measure
  actual : Nat
  limit : Nat
deriving DecidableEq, Repr

/-- The key of the limit on a measure. -/
def Measure.key : Measure → String
  | length => "max_query_length"
  | depth => "max_nesting_depth"
  | terms => "max_term_count"

/-- The written name of a measure. -/
def Measure.name : Measure → String
  | length => "query_length"
  | depth => "nesting_depth"
  | terms => "term_count"

/-- The message of one violation. -/
def Violation.message (v : Violation) : String :=
  let amounts := " " ++ toString v.actual ++ " exceeds maximum of " ++ toString v.limit
  match v.measure with
  | .length => "query length" ++ amounts ++ " bytes"
  | .depth => "nesting depth" ++ amounts
  | .terms => "term count" ++ amounts

namespace Limits

/-- The limits that hold unless others are set. -/
def standard : Limits := ⟨10000, 20, 100⟩

/-- The limit on one measure. -/
def get (l : Limits) : Measure → Nat
  | .length => l.length
  | .depth => l.depth
  | .terms => l.terms

/-- The limits with one of them set. -/
def set (l : Limits) (m : Measure) (n : Nat) : Limits :=
  match m with
  | .length => { l with length := n }
  | .depth => { l with depth := n }
  | .terms => { l with terms := n }

/-- The fault of the first limit that is zero. -/
def fault? (l : Limits) : Option SetupError :=
  (Measure.all.find? fun m => l.get m == 0).map fun m => .zeroLimit m.key

/-- Limits without a zero among them. -/
def checked (l : Limits) : Except SetupError Limits :=
  match l.fault? with
  | some e => .error e
  | none => .ok l

/-- The limits that a size exceeds. -/
def violations (l : Limits) (s : Size) : List Violation :=
  Measure.all.filterMap fun m => if l.get m < s.get m then some ⟨m, s.get m, l.get m⟩ else none

/-- The size of a query within the limits, or all violations. -/
def check (l : Limits) (query : String) : Except (List Violation) Size :=
  let s := Size.of query
  match l.violations s with
  | [] => .ok s
  | vs => .error vs

/-- The written form of limits. -/
def toJson (l : Limits) : Json := .object (Measure.all.map fun m => (m.key, .ofNat (l.get m)))

/-- Reads the written form of limits; a limit that is left out keeps its standard. -/
def ofJson? (v : Json) : Option Limits := do
  let parts ← v.parts? (Measure.all.map Measure.key)
  (Measure.all.zip parts).foldlM (fun l p =>
    match p.2 with
    | none => some l
    | some v => v.nat64?.map (l.set p.1)) standard

/-- A limit that is set is the limit from then on. -/
@[simp] theorem get_set_self (l : Limits) (m : Measure) (n : Nat) : (l.set m n).get m = n := by
  cases m <;> rfl

/-- A limit that is set leaves the other limits as they are. -/
theorem get_set_of_ne {m m' : Measure} (h : m' ≠ m) (l : Limits) (n : Nat) :
    (l.set m n).get m' = l.get m' := by
  cases m <;> cases m' <;> first | rfl | exact absurd rfl h

/-- **Within the limits there is no violation,** and the other way round. -/
theorem violations_eq_nil_iff {l : Limits} {s : Size} :
    l.violations s = [] ↔ ∀ m, s.get m ≤ l.get m := by
  simp only [violations, List.filterMap_eq_nil_iff]
  constructor
  · intro h m
    have := h m m.mem_all
    by_cases hm : l.get m < s.get m <;> simp_all
  · intro h m _
    rw [if_neg (Nat.not_lt.2 (h m))]

/-- A query that passes is within the limits. -/
theorem le_of_check {l : Limits} {query : String} {s : Size} (h : l.check query = .ok s) :
    s = Size.of query ∧ ∀ m, (Size.of query).get m ≤ l.get m := by
  simp only [check] at h
  split at h
  · rename_i hv
    exact ⟨(Except.ok.inj h).symm, violations_eq_nil_iff.1 hv⟩
  · exact absurd h (by simp)

end Limits
end Query
end SearchFilter
