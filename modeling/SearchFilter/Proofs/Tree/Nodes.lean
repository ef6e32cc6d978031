/-
# The nodes of a filter

A filter with the filters under it, those inside values included: a group can stand as the
value of a test or as a bound, though only as the value of `equals` does it say anything.
Every node is either a connective or a predicate, and all predicates are nodes.
-/

import SearchFilter.Proofs.Tree.Predicates

namespace SearchFilter

mutual

/-- A filter and all filters under it, from left to right. -/
def Filter.nodes : Filter → List Filter
  | .literal v => .literal v :: v.nodes
  | .equals c v => .equals c v :: v.nodes
  | .compare op c v => .compare op c v :: v.nodes
  | .and l r => .and l r :: (l.nodes ++ r.nodes)
  | .or l r => .or l r :: (l.nodes ++ r.nodes)
  | .must f => .must f :: f.nodes
  | .mustNot f => .mustNot f :: f.nodes
  | .like c p => [.like c p]
  | .wild c p => [.wild c p]
  | .fuzzy f n => .fuzzy f n :: f.nodes
  | .range c min max inclusive =>
    .range c min max inclusive :: (boundNodes min ++ boundNodes max)
  | .boost f p => .boost f p :: f.nodes

/-- The filters inside a value. -/
def Value.nodes : Value → List Filter
  | .text _ => []
  | .number _ => []
  | .group f => f.nodes

/-- The filters inside a bound. -/
def boundNodes : Option Value → List Filter
  | none => []
  | some v => v.nodes

end

namespace Filter

/-- Whether a filter asks for likeness. -/
def isFuzzy : Filter → Bool
  | fuzzy .. => true
  | _ => false

/-- Every filter is a node of itself. -/
theorem mem_nodes (f : Filter) : f ∈ f.nodes := by
  cases f <;> simp [nodes]

/-- All predicates are nodes. -/
theorem mem_nodes_of_mem_predicates {f g : Filter} (h : g ∈ f.predicates) : g ∈ f.nodes := by
  induction f using predicate_induction with
  | predicate f hf =>
    rw [predicates_of_isPredicate hf, List.mem_singleton] at h
    exact h ▸ mem_nodes f
  | group c f ih => exact List.mem_cons_of_mem _ (ih h)
  | and l r ihl ihr | or l r ihl ihr =>
    exact List.mem_cons_of_mem _
      ((List.mem_append.1 h).elim (fun h => List.mem_append_left _ (ihl h))
        fun h => List.mem_append_right _ (ihr h))
  | must f ih | mustNot f ih => exact List.mem_cons_of_mem _ (ih h)

end Filter
end SearchFilter
