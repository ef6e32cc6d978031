/-
# The boolean structure of a filter

A filter is a formula over its predicates: `must` and groups are dropped, the other
connectives stay, and the predicates keep their order.
-/

import SearchFilter.Proofs.Tree.Predicates

namespace SearchFilter

/-- A boolean combination of atoms. -/
inductive Formula (α : Type) where
  | atom (a : α)
  | not (f : Formula α)
  | and (l r : Formula α)
  | or (l r : Formula α)
deriving DecidableEq, Repr

namespace Formula

variable {α β : Type}

/-- The atoms from left to right. -/
def atoms : Formula α → List α
  | atom a => [a]
  | not f => f.atoms
  | and l r => l.atoms ++ r.atoms
  | or l r => l.atoms ++ r.atoms

/-- The formula with a formula in the place of each atom. -/
def bind (k : α → Formula β) : Formula α → Formula β
  | atom a => k a
  | not f => .not (f.bind k)
  | and l r => .and (l.bind k) (r.bind k)
  | or l r => .or (l.bind k) (r.bind k)

/-- The formula with every atom replaced. -/
def map (g : α → β) (f : Formula α) : Formula β := f.bind fun a => .atom (g a)

end Formula

namespace Filter

/-- The boolean structure of a filter over its predicates. -/
def skeleton : Filter → Formula Filter
  | equals _ (.group f) => f.skeleton
  | and l r => .and l.skeleton r.skeleton
  | or l r => .or l.skeleton r.skeleton
  | must f => f.skeleton
  | mustNot f => .not f.skeleton
  | f => .atom f

/-- A predicate is an atom. -/
theorem skeleton_of_isPredicate {f : Filter} (h : f.isPredicate = true) : f.skeleton = .atom f := by
  unfold isPredicate at h
  split at h <;> first | exact absurd h (by decide) | exact skeleton.eq_6 _ ‹_› ‹_› ‹_› ‹_› ‹_›

/-- **The atoms of the structure are the predicates,** in their order. -/
theorem atoms_skeleton (f : Filter) : f.skeleton.atoms = f.predicates := by
  induction f using predicate_induction with
  | predicate f hf => rw [skeleton_of_isPredicate hf, predicates_of_isPredicate hf]; rfl
  | group c f ih => exact ih
  | and l r ihl ihr => rw [skeleton, Formula.atoms, ihl, ihr, predicates]
  | or l r ihl ihr => rw [skeleton, Formula.atoms, ihl, ihr, predicates]
  | must f ih => exact ih
  | mustNot f ih => exact ih

end Filter
end SearchFilter
