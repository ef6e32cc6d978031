/-
# Targets that agree

Two targets agree on a filter if both refuse it for the same reason, or both write it with
values that are tied. The connectives are the same for all targets, and so is the form of
most predicates:

| to agree on | targets have to agree on |
| --- | --- |
| `equals c v`, `compare op c v` | the column and the value |
| `range c min max` | the column and the bounds |
| a filter | its predicates |

A target that takes no group for a value and has no likeness is *plain*. A filter that it
writes has no nodes but connectives and predicates that it writes (`forall_mem_nodes_of_render`).
-/

import SearchFilter.Proofs.Render.Sentence
import SearchFilter.Proofs.Tree.Nodes

namespace SearchFilter

variable {α β : Type}

/-! ### Values that are tied -/

/-- A relation between lists of values that holds of the whole where it holds of the parts. -/
structure IsPartwise (S : List α → List β → Prop) : Prop where
  nil : S [] []
  append {xs xs' : List α} {ys ys' : List β} : S xs ys → S xs' ys' → S (xs ++ xs') (ys ++ ys')

/-- Equality holds of the whole where it holds of the parts. -/
theorem isPartwise_eq : IsPartwise (Eq : List α → List α → Prop) :=
  ⟨rfl, fun h h' => h ▸ h' ▸ rfl⟩

/-- Where nothing is asked of the parts, nothing is asked of the whole. -/
theorem isPartwise_true : IsPartwise fun (_ : List α) (_ : List β) => True :=
  ⟨trivial, fun _ _ => trivial⟩

/-- Fragments whose values are tied, whatever their texts. -/
def Tied (S : List α → List β → Prop) (a : Fragment α) (b : Fragment β) : Prop :=
  S a.values b.values

namespace IsPartwise

variable {S : List α → List β → Prop} {a a' : Fragment α} {b b' : Fragment β}

/-- Texts without values are tied. -/
theorem tied_plain (hS : IsPartwise S) (s s' : List Char) : Tied S (.plain s) (.plain s') := hS.nil

/-- Fragments one behind the other are tied if they are. -/
theorem tied_append (hS : IsPartwise S) (h : Tied S a b) (h' : Tied S a' b') :
    Tied S (a ++ a') (b ++ b') := hS.append h h'

/-- Fragments between parentheses are tied if they are. -/
theorem tied_grouped (hS : IsPartwise S) (h : Tied S a b) : Tied S a.grouped b.grouped :=
  hS.tied_append (hS.tied_append (hS.tied_plain _ _) h) (hS.tied_plain _ _)

/-- Joined fragments are tied if they are. -/
theorem tied_joined (hS : IsPartwise S) (operator : String) (h : Tied S a b) (h' : Tied S a' b') :
    Tied S (.joined operator a a') (.joined operator b b') :=
  hS.tied_append (hS.tied_append (hS.tied_grouped h) (hS.tied_plain _ _)) (hS.tied_grouped h')

end IsPartwise

/-! ### Agreement on predicates and on filters -/

namespace Target

variable {t : Target α} {u : Target β} {S : List α → List β → Prop} {c : Column}

/-- Targets that agree on the column and the value agree on an equality. -/
theorem alike_equals (hS : IsPartwise S) {v : Value}
    (hcolumn : Alike (fun _ _ => True) (t.column c) (u.column c))
    (hvalue : Alike (Tied S) (t.value v) (u.value v)) :
    Alike (Tied S) (t.equals c v) (u.equals c v) := by
  refine hcolumn.bind fun text text' _ => ?_
  split
  · exact .ok (hS.tied_plain _ _)
  · refine hvalue.bind fun a b hab => .ok ?_
    exact hS.tied_append (hS.tied_append (hS.tied_plain _ _) (hS.tied_plain _ _)) hab

/-- Targets that agree on the column and the value agree on a comparison. -/
theorem alike_compare (hS : IsPartwise S) (op : Comparison) {v : Value}
    (hcolumn : Alike (fun _ _ => True) (t.column c) (u.column c))
    (hvalue : Alike (Tied S) (t.value v) (u.value v)) :
    Alike (Tied S) (t.compare op c v) (u.compare op c v) := by
  rw [compare, compare]
  split
  · exact .error _
  · refine hcolumn.bind fun text text' _ => hvalue.bind fun a b hab => .ok ?_
    exact hS.tied_append (hS.tied_append (hS.tied_plain _ _) (hS.tied_plain _ _)) hab

/-- Targets that agree on the column and the bounds agree on a range. -/
theorem alike_range (hS : IsPartwise S) {min max : Option Value} (inclusive : Bool)
    (hcolumn : Alike (fun _ _ => True) (t.column c) (u.column c))
    (hmin : ∀ v ∈ min, Alike (Tied S) (t.bound v) (u.bound v))
    (hmax : ∀ v ∈ max, Alike (Tied S) (t.bound v) (u.bound v)) :
    Alike (Tied S) (t.range c min max inclusive) (u.range c min max inclusive) := by
  have hword (s s' : String) : Tied S (.word s) (.word s') := hS.tied_plain _ _
  have hfront (text text' : List Char) (s s' : String) :
      Tied S (.plain text ++ .word s) (.plain text' ++ .word s') :=
    hS.tied_append (hS.tied_plain _ _) (hword s s')
  rw [range, range]
  split
  · exact .error _
  refine hcolumn.bind fun text text' _ => ?_
  cases min with
  | none =>
    cases max with
    | none => exact .error _
    | some high =>
      exact (hmax high rfl).bind fun a b hab => .ok (hS.tied_append (hfront ..) hab)
  | some low =>
    cases max with
    | none => exact (hmin low rfl).bind fun a b hab => .ok (hS.tied_append (hfront ..) hab)
    | some high =>
      refine (hmin low rfl).bind fun a b hab => (hmax high rfl).bind fun a' b' hab' => ?_
      cases inclusive with
      | true =>
        exact .ok (hS.tied_append (hS.tied_append (hS.tied_append (hfront ..) hab) (hword ..)) hab')
      | false =>
        have hlow : Tied S (.word "(" ++ .plain text ++ .word " > " ++ a)
            (.word "(" ++ .plain text' ++ .word " > " ++ b) :=
          hS.tied_append (hS.tied_append (hS.tied_append (hword ..) (hS.tied_plain ..)) (hword ..))
            hab
        have hhigh := hS.tied_append (hS.tied_append (hS.tied_append (hS.tied_append hlow
          (hword " AND " " AND ")) (hS.tied_plain text text')) (hword " < " " < ")) hab'
        exact .ok (hS.tied_append hhigh (hword ..))

/-- **Targets that agree on the predicates of a filter agree on the filter.** -/
theorem alike_render (hS : IsPartwise S) {f : Filter}
    (h : ∀ g ∈ f.predicates, Alike (Tied S) (t.render g) (u.render g)) :
    Alike (Tied S) (t.render f) (u.render f) := by
  induction f using Filter.predicate_induction with
  | predicate f hf => exact h f (by simp [Filter.predicates_of_isPredicate hf])
  | group c f ih => exact (ih h).bind fun _ _ hab => .ok (hS.tied_grouped hab)
  | and l r ihl ihr | or l r ihl ihr =>
    obtain ⟨hl, hr⟩ := List.forall_mem_append.1 h
    exact (ihl hl).bind fun _ _ hab => (ihr hr).bind fun _ _ hab' => .ok (hS.tied_joined _ hab hab')
  | must f ih => exact ih h
  | mustNot f ih =>
    exact (ih h).bind fun _ _ hab => .ok (hS.tied_append (hS.tied_plain _ _) (hS.tied_grouped hab))

/-! ### Plain targets -/

/-- A target that takes no group for a value or a bound and has no likeness. -/
structure IsPlain (t : Target α) : Prop where
  value (f : Filter) : t.value (.group f) = .error .group
  bound (f : Filter) : t.bound (.group f) = .error .group
  fuzzy (f : Filter) : ∃ e, t.fuzzy f = .error e

/-- There is nothing below a predicate that a plain target writes. -/
theorem nodes_of_render (ht : t.IsPlain) {g : Filter} {b : Fragment α} (hg : g.isPredicate = true)
    (h : t.render g = .ok b) : g.nodes = [g] := by
  -- groups alone have filters inside, and a plain target writes none
  have hvalue {v : Value} {a : Fragment α} (ha : t.value v = .ok a) : v.nodes = [] := by
    cases v with
    | text s => rfl
    | number x => rfl
    | group f => cases (ht.value f).symm.trans ha
  have hbound {v : Value} {a : Fragment α} (ha : t.bound v = .ok a) : v.nodes = [] := by
    cases v with
    | text s => rfl
    | number x => rfl
    | group f => cases (ht.bound f).symm.trans ha
  cases renders_of_render hg h with
  | @equals c v hg =>
    cases v with
    | text s => rfl
    | number x => rfl
    | group f => cases hg
  | compare h =>
    obtain ⟨_, a, -, ha, -⟩ := exists_of_compare h
    rw [Filter.nodes, hvalue ha]
  | like | wild => rfl
  | range h =>
    obtain ⟨_, -, hranges⟩ := exists_ranges h
    cases hranges with
    | above ha | below ha =>
      rw [Filter.nodes, boundNodes, boundNodes, hbound ha]
      rfl
    | between ha hb =>
      rw [Filter.nodes, boundNodes, boundNodes, hbound ha, hbound hb]
      rfl
  | @fuzzy f _ _ h =>
    obtain ⟨e, he⟩ := ht.fuzzy f
    cases he.symm.trans h

/-- **What a plain target writes consists of connectives and of predicates that it writes.** -/
theorem forall_mem_nodes_of_render (ht : t.IsPlain) {f : Filter} {a : Fragment α}
    (h : t.render f = .ok a) :
    ∀ g ∈ f.nodes, g.isPredicate = false ∨ ∃ b, t.render g = .ok b := by
  refine render_induction
    (P := fun f _ => ∀ g ∈ f.nodes, g.isPredicate = false ∨ ∃ b, t.render g = .ok b)
    ?_ ?_ ?_ ?_ ?_ ?_ h
  · intro f b hf hb
    rw [nodes_of_render ht hf hb, List.forall_mem_singleton]
    exact .inr ⟨b, hb⟩
  · exact fun hf => List.forall_mem_cons.2 ⟨.inl rfl, hf⟩
  · exact fun hl hr => List.forall_mem_cons.2 ⟨.inl rfl, List.forall_mem_append.2 ⟨hl, hr⟩⟩
  · exact fun hl hr => List.forall_mem_cons.2 ⟨.inl rfl, List.forall_mem_append.2 ⟨hl, hr⟩⟩
  · exact fun hf => List.forall_mem_cons.2 ⟨.inl rfl, hf⟩
  · exact fun hf => List.forall_mem_cons.2 ⟨.inl rfl, hf⟩

end Target
end SearchFilter
