/-
# Alternatives over fields

Words and phrases without a field can be spread over fields before or after the grammar has
read them:

| spread in | `john` over `name` and `email` |
| --- | --- |
| the text (`copies`) | `(name:*john* OR email:*john*)` |
| the clause (`Clause.spreadOver`) | the clause of that text (`writes_copies`) |
| the filter (`Clause.spread`) | the filter of that clause (`lower_spreadOver`) |

Nothing is spread inside the group of a field.
-/

import SearchFilter.Grammar.Lowering
import SearchFilter.Proofs.Grammar.Reference
import SearchFilter.Proofs.Grammar.Written
import SearchFilter.Proofs.Outcome
import SearchFilter.Proofs.Query.Copies

namespace SearchFilter
namespace Grammar

open Query (copies joined copies_eq_joined)

/-- An atom in each of the fields, joined from the left. -/
def Clause.anyOf (a : Atom) (name : List Char) (names : List (List Char)) : Clause :=
  names.foldl (fun c f => .or c (.leaf (some f) a)) (.leaf (some name) a)

/-- The clause with its words and phrases spread over fields; `grouped` says that it stands
in the group of a field. -/
def Clause.spreadOver (name : List Char) (names : List (List Char)) : Bool → Clause → Clause
  | false, .leaf none (.term w) => .anyOf (.term ('*' :: (w ++ ['*']))) name names
  | false, .leaf none (.phrase p) => .anyOf (.phrase p) name names
  | _, .leaf field a => .leaf field a
  | _, .fieldGroup field c => .fieldGroup field (c.spreadOver name names true)
  | grouped, .and c d => .and (c.spreadOver name names grouped) (d.spreadOver name names grouped)
  | grouped, .or c d => .or (c.spreadOver name names grouped) (d.spreadOver name names grouped)
  | grouped, .must c => .must (c.spreadOver name names grouped)
  | grouped, .mustNot c => .mustNot (c.spreadOver name names grouped)
  | grouped, .fuzzy c distance => .fuzzy (c.spreadOver name names grouped) distance
  | grouped, .boost c power => .boost (c.spreadOver name names grouped) power

/-- A filter on each of the fields, joined from the left. -/
def anyColumn (test : Column → Filter) (name : List Char) (names : List (List Char)) : Filter :=
  names.foldl (fun g f => .or g (test (columnOf f))) (test (columnOf name))

/-- The filter of a clause whose words and phrases without a field are looked for in any of
the given fields. The group of a field is bound to that field. -/
def Clause.spread (name : List Char) (names : List (List Char)) : Clause → Except Unbound Filter
  | .leaf none (.term w) =>
    .ok (anyColumn (fun c => .like c (String.ofList ('*' :: (w ++ ['*'])))) name names)
  | .leaf none (.phrase p) => .ok (anyColumn (fun c => .equals c (textValue p)) name names)
  | .leaf field a => (Clause.leaf field a).lower none
  | .fieldGroup field c => (Clause.fieldGroup field c).lower none
  | .and c d => do
    let f ← c.spread name names
    let g ← d.spread name names
    .ok (.and f g)
  | .or c d => do
    let f ← c.spread name names
    let g ← d.spread name names
    .ok (.or f g)
  | .must c => return .must (← c.spread name names)
  | .mustNot c => return .mustNot (← c.spread name names)
  | .fuzzy c distance => return .fuzzy (← c.spread name names) distance
  | .boost c power => return .boost (← c.spread name names) power

variable {name : List Char} {names : List (List Char)}

/-! ### Clauses -/

/-- In the group of a field nothing is spread. -/
@[simp] theorem spreadOver_true (c : Clause) : c.spreadOver name names true = c := by
  induction c with
  | leaf => rfl
  | fieldGroup field c ih | must c ih | mustNot c ih | fuzzy c _ ih | boost c _ ih =>
    rw [Clause.spreadOver, ih]
  | and c d ihc ihd | or c d ihc ihd => rw [Clause.spreadOver, ihc, ihd]

/-- Prefixes stay in front of what is spread. -/
theorem spreadOver_prefixed (grouped : Bool) (ps : List Prefix) (c : Clause) :
    (c.prefixed ps).spreadOver name names grouped =
      (c.spreadOver name names grouped).prefixed ps := by
  rw [Clause.prefixed, Clause.prefixed]
  split
  · rw [Clause.spreadOver]
  · split
    · rw [Clause.spreadOver]
    · rfl

/-- Alternatives name the fields that they are in. -/
theorem fields_anyOf (a : Atom) (name : List Char) (names : List (List Char)) :
    (Clause.anyOf a name names).fields = name :: names := by
  have key (names : List (List Char)) (c : Clause) :
      (names.foldl (fun c f => Clause.or c (.leaf (some f) a)) c).fields = c.fields ++ names := by
    induction names generalizing c with
    | nil => simp
    | cons f names ih =>
      rw [List.foldl_cons, ih, Clause.fields]
      simp [Clause.fields]
  exact key names _

/-- The fields that a spread clause names. -/
theorem mem_fields_spreadOver {grouped : Bool} {c : Clause} {f : List Char}
    (h : f ∈ (c.spreadOver name names grouped).fields) : f ∈ name :: names ∨ f ∈ c.fields := by
  have spread {a : Atom} (h : f ∈ (Clause.anyOf a name names).fields) : f ∈ name :: names := by
    rwa [fields_anyOf] at h
  induction c generalizing grouped with
  | leaf field a =>
    cases grouped with
    | true => exact .inr h
    | false =>
      cases field with
      | some field => exact .inr h
      | none =>
        cases a with
        | term | phrase => exact .inl (spread h)
        | range | compare => cases h
  | fieldGroup field c ih =>
    rw [Clause.spreadOver, spreadOver_true] at h
    exact .inr h
  | and c d ihc ihd | or c d ihc ihd =>
    rw [Clause.spreadOver] at h
    rcases List.mem_append.1 h with h | h
    · exact (ihc h).imp_right fun h => List.mem_append_left _ h
    · exact (ihd h).imp_right fun h => List.mem_append_right _ h
  | must c ih | mustNot c ih | fuzzy c _ ih | boost c _ ih =>
    rw [Clause.spreadOver] at h
    exact ih h

/-! ### Filters -/

/-- Alternatives are bound as the filters on each of the columns. -/
theorem lower_anyOf (a : Atom) (column : Option Column) :
    (Clause.anyOf a name names).lower column = .ok (anyColumn (fun c => a.filter c) name names) := by
  have key (names : List (List Char)) {c : Clause} {g : Filter} (hc : c.lower column = .ok g) :
      (names.foldl (fun c f => Clause.or c (.leaf (some f) a)) c).lower column =
        .ok (names.foldl (fun g f => Filter.or g (a.filter (columnOf f))) g) := by
    induction names generalizing c g with
    | nil => exact hc
    | cons f names ih =>
      refine ih ?_
      rw [Clause.lower, hc]
      rfl
  exact key names rfl

/-- A term between stars is a pattern. -/
theorem filter_starred (w : List Char) (c : Column) :
    (Atom.term ('*' :: (w ++ ['*']))).filter c = .like c (String.ofList ('*' :: (w ++ ['*']))) := by
  rw [Atom.filter, if_pos]
  rw [Text.hasBare_iff, Text.glyphs_bare (by decide)]
  exact List.mem_cons_self ..

/-- **A clause is spread before it is bound, or while it is bound.** -/
theorem lower_spreadOver {c : Clause} {f : Filter} (h : c.spread name names = .ok f)
    (column : Option Column) : (c.spreadOver name names false).lower column = .ok f := by
  induction c generalizing f with
  | leaf field a =>
    cases field with
    | some field => exact h
    | none =>
      cases a with
      | term w =>
        have hstarred := funext (filter_starred w)
        rw [Clause.spreadOver, lower_anyOf, hstarred]
        exact h
      | phrase p =>
        rw [Clause.spreadOver, lower_anyOf]
        exact h
      | range | compare => cases h
  | fieldGroup field c ih =>
    rw [Clause.spreadOver, spreadOver_true]
    exact h
  | and c d ihc ihd | or c d ihc ihd =>
    obtain ⟨f₁, hc, h⟩ := bind_eq_ok.1 h
    obtain ⟨f₂, hd, h⟩ := bind_eq_ok.1 h
    rw [Clause.spreadOver, Clause.lower, ihc hc, ihd hd]
    exact h
  | must c ih | mustNot c ih | fuzzy c _ ih | boost c _ ih =>
    obtain ⟨g, hg, h⟩ := bind_eq_ok.1 h
    rw [Clause.spreadOver, Clause.lower, ih hg]
    exact h

/-- What is written can be spread. -/
theorem Writes.exists_spread {rank : Rank} {c : Clause} {s : List Char} (h : Writes rank c s) :
    ∃ f, c.spread name names = .ok f := by
  have joined {c d : Clause} (hc : ∃ f, c.spread name names = .ok f)
      (hd : ∃ f, d.spread name names = .ok f) :
      (∃ f, (Clause.and c d).spread name names = .ok f) ∧
        ∃ f, (Clause.or c d).spread name names = .ok f := by
    obtain ⟨f, hf⟩ := hc
    obtain ⟨g, hg⟩ := hd
    exact ⟨⟨.and f g, by rw [Clause.spread, hf, hg]; rfl⟩,
      ⟨.or f g, by rw [Clause.spread, hf, hg]; rfl⟩⟩
  induction h with
  | leaf h => cases h <;> exact ⟨_, rfl⟩
  | @fieldGroup field c =>
    obtain ⟨f, hf⟩ := c.lower_isOk (columnOf field)
    exact ⟨_, by rw [Clause.spread, Clause.lower, hf]; rfl⟩
  | group _ ih | unsigned _ ih | factor _ ih | conjunction _ ih => exact ih
  | signed _ _ _ _ ih =>
    obtain ⟨f, hf⟩ := ih
    rw [Clause.prefixed]
    split
    · exact ⟨.mustNot f, by rw [Clause.spread, hf]; rfl⟩
    · split
      · exact ⟨.must f, by rw [Clause.spread, hf]; rfl⟩
      · exact ⟨f, hf⟩
  | beside _ _ ihc ihd | and _ _ _ ihc ihd => exact (joined ihc ihd).1
  | or _ _ _ ihc ihd => exact (joined ihc ihd).2

/-! ### Texts -/

/-- The alternatives behind a written disjunction. -/
theorem writes_joined {a : Atom} {value : List Char} {c : Clause} {s : List Char}
    (hc : Writes .disjunction c s)
    (h : ∀ f ∈ names, WritesLeaf (some f) a (f ++ ':' :: value)) :
    ∃ t, Writes .disjunction (names.foldl (fun c f => .or c (.leaf (some f) a)) c) t ∧
      t ++ [')'] = s ++ (match names with
        | [] => [')']
        | f :: rest => ' ' :: 'O' :: 'R' :: ' ' :: joined value (f :: rest)) := by
  induction names generalizing c s with
  | nil => exact ⟨s, hc, rfl⟩
  | cons f names ih =>
    have hf : Writes .conjunction (.leaf (some f) a) (f ++ ':' :: value) :=
      .factor (.unsigned (.leaf (h f (List.mem_cons_self ..))))
    obtain ⟨t, ht, htext⟩ := ih (.or hc isKeyword_or hf) fun g hg => h g (List.mem_cons_of_mem f hg)
    refine ⟨t, ht, ?_⟩
    rw [htext]
    cases names <;> simp [joined]

/-- **Copies write the alternatives,** with parentheses if there are several. -/
theorem writes_copies {a : Atom} {value : List Char}
    (h : ∀ f ∈ name :: names, WritesLeaf (some f) a (f ++ ':' :: value)) :
    Writes .operand (.anyOf a name names) (copies (name :: names) value) := by
  have hname := h name (List.mem_cons_self ..)
  cases names with
  | nil => exact .leaf hname
  | cons f names =>
    obtain ⟨t, ht, htext⟩ := writes_joined (.conjunction (.factor (.unsigned (.leaf hname))))
      fun g hg => h g (List.mem_cons_of_mem name hg)
    have hcopies : copies (name :: f :: names) value = '(' :: (t ++ [')']) := by
      rw [copies_eq_joined (by simp), htext]
      simp [joined]
    rw [hcopies]
    exact .group ht

end Grammar
end SearchFilter
