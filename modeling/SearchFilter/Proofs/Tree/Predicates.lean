/-
# The predicates of a filter

A filter is a boolean combination of predicates: its leaves, and `fuzzy` or `boost` with
what they modify. A predicate tests at most one column, and columns that have been looked
up are names of fields or of their parts.
-/

import SearchFilter.Proofs.Outcome
import SearchFilter.Text.Escape
import SearchFilter.Tree.Columns

namespace SearchFilter
namespace Filter

/-- Whether a target writes the filter in its own way. -/
def isPredicate : Filter → Bool
  | equals _ (.group _) => false
  | and .. => false
  | or .. => false
  | must _ => false
  | mustNot _ => false
  | _ => true

/-- The predicates of a filter, from left to right. -/
def predicates : Filter → List Filter
  | equals _ (.group f) => f.predicates
  | and l r => l.predicates ++ r.predicates
  | or l r => l.predicates ++ r.predicates
  | must f => f.predicates
  | mustNot f => f.predicates
  | f => [f]

/-- A predicate has no others. -/
theorem predicates_of_isPredicate {f : Filter} (h : f.isPredicate = true) :
    f.predicates = [f] := by
  unfold isPredicate at h
  split at h <;> first | exact absurd h (by decide) | exact predicates.eq_6 _ ‹_› ‹_› ‹_› ‹_› ‹_›

/-- Predicates apart, a filter is made by the connectives. -/
theorem predicate_induction {P : Filter → Prop}
    (predicate : ∀ f, f.isPredicate = true → P f)
    (group : ∀ c f, P f → P (equals c (.group f)))
    (and : ∀ l r, P l → P r → P (and l r))
    (or : ∀ l r, P l → P r → P (or l r))
    (must : ∀ f, P f → P (must f))
    (mustNot : ∀ f, P f → P (mustNot f)) (f : Filter) : P f := by
  induction f using predicates.induct with
  | case1 c f ih => exact group c f ih
  | case2 l r ihl ihr => exact and l r ihl ihr
  | case3 l r ihl ihr => exact or l r ihl ihr
  | case4 f ih => exact must f ih
  | case5 f ih => exact mustNot f ih
  | case6 f h₁ h₂ h₃ h₄ h₅ => exact predicate f (isPredicate.eq_6 f h₁ h₂ h₃ h₄ h₅)

/-- The predicates of a filter are predicates. -/
theorem isPredicate_of_mem_predicates {f g : Filter} (h : g ∈ f.predicates) :
    g.isPredicate = true := by
  induction f using predicate_induction with
  | predicate f hf =>
    rw [predicates_of_isPredicate hf, List.mem_singleton] at h
    exact h ▸ hf
  | group c f ih => exact ih h
  | and l r ihl ihr | or l r ihl ihr => exact (List.mem_append.1 h).elim ihl ihr
  | must f ih | mustNot f ih => exact ih h

/-- The column that a predicate tests. -/
def column? : Filter → Option Column
  | equals c _ => some c
  | compare _ c _ => some c
  | like c _ => some c
  | wild c _ => some c
  | range c _ _ _ => some c
  | fuzzy f _ => f.column?
  | _ => none

/-- The raw pattern that a predicate matches with. -/
def pattern? : Filter → Option String
  | like _ p => some p
  | wild _ p => some p
  | _ => none

/-- The values that a predicate tests for. -/
def tested : Filter → List Value
  | literal v => [v]
  | equals _ v => [v]
  | compare _ _ v => [v]
  | range _ min max _ => min.toList ++ max.toList
  | fuzzy f _ => f.tested
  | _ => []

end Filter

/-- Whether no pattern of a filter ends in the middle of a backslash pair. -/
def Filter.IsWhole (f : Filter) : Prop :=
  ∀ g ∈ f.predicates, ∀ p ∈ g.pattern?, Text.Glyph.cut ∉ Text.glyphs p.toList

/-- Whether a value is finite, if it is a number. -/
def Value.isFinite : Value → Bool
  | number x => x.isFinite
  | _ => true

/-- Whether all numbers that a filter tests for are finite. -/
def Filter.IsFinite (f : Filter) : Prop := ∀ g ∈ f.predicates, ∀ v ∈ g.tested, v.isFinite = true

instance (f : Filter) : Decidable f.IsFinite :=
  inferInstanceAs (Decidable (∀ g ∈ f.predicates, ∀ v ∈ g.tested, v.isFinite = true))

/-- Whether a column is named by an identifier, or by two with a point between them. -/
def Column.IsSafe (c : Column) : Prop :=
  Text.isIdentifier c.split.1.toList = true ∧ ∀ part ∈ c.split.2, Text.isIdentifier part.toList = true

instance (c : Column) : Decidable c.IsSafe := inferInstanceAs (Decidable (_ ∧ _))

/-- What a column of the schema can be. -/
inductive Schema.Names (s : Schema) (c : Column) : Prop where
  /-- a field -/
  | field {f : Field} : f ∈ s.fields → c.split = (f.name, none) → Names s c
  /-- a part of a structured field -/
  | part {f : Field} {part : String} : f ∈ s.fields → f.hasParts = true →
      c.split = (f.name, some part) → Names s c

/-- A column that has been looked up is the name of a field or of its part. -/
theorem names_of_check {s : Schema} {c : Column} (h : c.check s = .ok ()) : s.Names c := by
  unfold Column.check at h
  split at h
  · cases h
  · rename_i f part hget hpart
    split at h
    · rename_i hparts
      have hname := Schema.name_of_get? hget
      exact .part (Schema.mem_of_get? hget) hparts (Prod.ext hname.symm hpart)
    · cases h
  · rename_i f hget hpart
    exact .field (Schema.mem_of_get? hget) (Prod.ext (Schema.name_of_get? hget).symm hpart)

/-- The column of a filter that has been looked up is the name of a field or of its part. -/
theorem names_of_column? {s : Schema} {f : Filter} (h : f.checkColumns s = .ok ()) :
    ∀ c ∈ f.column?, s.Names c := by
  induction f using Filter.column?.induct with
  | case1 c v =>
    rintro _ ⟨⟩
    cases v with
    | group f =>
      obtain ⟨_, hc, -⟩ := bind_eq_ok.1 h
      exact names_of_check hc
    | text t => exact names_of_check h
    | number x => exact names_of_check h
  | case2 op c v => rintro _ ⟨⟩; exact names_of_check h
  | case3 c p => rintro _ ⟨⟩; exact names_of_check h
  | case4 c p => rintro _ ⟨⟩; exact names_of_check h
  | case5 c min max inclusive => rintro _ ⟨⟩; exact names_of_check h
  | case6 f n ih => exact ih h
  | case7 f h₁ h₂ h₃ h₄ h₅ h₆ =>
    rw [Filter.column?.eq_7 f h₁ h₂ h₃ h₄ h₅ h₆]
    exact nofun

/-- **The columns of all predicates have been looked up.** -/
theorem names_of_checkColumns {s : Schema} {f : Filter} (h : f.checkColumns s = .ok ()) :
    ∀ g ∈ f.predicates, ∀ c ∈ g.column?, s.Names c := by
  have both {l r : Filter} (ihl : l.checkColumns s = .ok () →
        ∀ g ∈ l.predicates, ∀ c ∈ g.column?, s.Names c)
      (ihr : r.checkColumns s = .ok () → ∀ g ∈ r.predicates, ∀ c ∈ g.column?, s.Names c)
      (h : (do l.checkColumns s; r.checkColumns s) = .ok ()) :
      ∀ g ∈ l.predicates ++ r.predicates, ∀ c ∈ g.column?, s.Names c := by
    obtain ⟨_, hl, hr⟩ := bind_eq_ok.1 h
    exact List.forall_mem_append.2 ⟨ihl hl, ihr hr⟩
  induction f using Filter.predicate_induction with
  | predicate f hf =>
    rw [Filter.predicates_of_isPredicate hf, List.forall_mem_singleton]
    exact names_of_column? h
  | group c f ih =>
    obtain ⟨_, -, hf⟩ := bind_eq_ok.1 h
    exact ih hf
  | and l r ihl ihr => exact both ihl ihr h
  | or l r ihl ihr => exact both ihl ihr h
  | must f ih => exact ih h
  | mustNot f ih => exact ih h

end SearchFilter
