/-
# Contents play no part in the text

The *shape* of a filter is what is left of it without the contents of its values: each string is
replaced by the empty one, or by `null` where it is that word, each finite number by zero, and each
pattern by the empty one. A dialect writes the same text for a filter as for its shape, with as many
values (`parallel_render`), or refuses both for the same reason. So two filters of one shape differ in
nothing but their values when they are rendered (`render_of_shape_eq`).

| read by a dialect | how much of it |
| --- | --- |
| a string | whether it is `null` |
| a number | whether it is finite |
| a pattern | nothing |
| everything else of the filter | all |
-/

import SearchFilter.Proofs.Tree.Predicates
import SearchFilter.Render.Sql

namespace SearchFilter

/-! ### Shapes -/

/-- A finite number without its value. -/
def Double.shape (x : Double) : Double := if x.isFinite then .finite false 0 (-1074) else x

mutual

/-- A filter without the contents of its values. -/
def Filter.shape : Filter → Filter
  | .literal v => .literal v.shape
  | .equals c v => .equals c v.shape
  | .compare op c v => .compare op c v.shape
  | .and l r => .and l.shape r.shape
  | .or l r => .or l.shape r.shape
  | .must f => .must f.shape
  | .mustNot f => .mustNot f.shape
  | .like c _ => .like c ""
  | .wild c _ => .wild c ""
  | .fuzzy f n => .fuzzy f.shape n
  | .range c min max inclusive => .range c (boundShape min) (boundShape max) inclusive
  | .boost f p => .boost f.shape p.shape

/-- A value without its content. -/
def Value.shape : Value → Value
  | .text s => .text (if (Value.text s).isNull then "null" else "")
  | .number x => .number x.shape
  | .group f => .group f.shape

/-- A bound without its content. -/
def boundShape : Option Value → Option Value
  | none => none
  | some v => some v.shape

end

/-- A number is finite where its shape is. -/
theorem Double.isFinite_shape (x : Double) : x.shape.isFinite = x.isFinite := by
  rw [shape]
  split
  · rename_i h
    rw [h]
    rfl
  · rfl

/-- A string is `null` where its shape is. -/
theorem Value.isNull_shape (v : Value) : v.shape.isNull = v.isNull := by
  cases v with
  | text s =>
    rw [shape]
    cases h : (Value.text s).isNull <;> decide +kernel
  | number x => rfl
  | group f => rfl

namespace Sql

/-! ### Results that differ in values alone -/

/-- The same error, or the same text with as many values. -/
inductive Parallel : Except RenderError (Fragment Json) → Except RenderError (Fragment Json) → Prop
  | error (e : RenderError) : Parallel (.error e) (.error e)
  | ok {text : List Char} {xs ys : List Json} : xs.length = ys.length →
    Parallel (.ok ⟨text, xs⟩) (.ok ⟨text, ys⟩)

/-- A result differs from itself in nothing. -/
theorem Parallel.refl (x : Except RenderError (Fragment Json)) : Parallel x x := by
  cases x with
  | error e => exact .error e
  | ok a => exact .ok rfl

/-- Results that differ from a third one in values alone do so from each other. -/
theorem Parallel.of_common {x y z : Except RenderError (Fragment Json)} (hx : Parallel x z)
    (hy : Parallel y z) : Parallel x y := by
  cases hx with
  | error e => cases hy with
    | error => exact .error e
  | ok h => cases hy with
    | ok h' => exact .ok (h.trans h'.symm)

/-- What is done with parallel results. -/
theorem Parallel.bind {x y : Except RenderError (Fragment Json)}
    {k l : Fragment Json → Except RenderError (Fragment Json)} (h : Parallel x y)
    (hkl : ∀ text xs ys, xs.length = ys.length → Parallel (k ⟨text, xs⟩) (l ⟨text, ys⟩)) :
    Parallel (x >>= k) (y >>= l) := by
  cases h with
  | error e => exact .error e
  | ok h => exact hkl _ _ _ h

/-- What is done with the text of a column. -/
theorem parallel_column {x : Except RenderError (List Char)}
    {k l : List Char → Except RenderError (Fragment Json)} (h : ∀ t, Parallel (k t) (l t)) :
    Parallel (x >>= k) (x >>= l) := by
  cases x with
  | error e => exact .error e
  | ok t => exact h t

/-- One value in the same text. -/
theorem parallel_slot {a b : Fragment Json} (text : a.text = b.text)
    (values : a.values.length = b.values.length) : Parallel (.ok a) (.ok b) := by
  obtain ⟨s, xs⟩ := a
  obtain rfl : s = b.text := text
  exact .ok values

/-! ### Predicates -/

variable {d : Dialect}

/-- A value is bound as its shape. -/
theorem parallel_bind (v : Value) : Parallel (Sql.bind v) (Sql.bind v.shape) := by
  have ok {v : Value} {p : Json} (h : param v = .ok p) : Sql.bind v = .ok ⟨['?'], [p]⟩ := by
    rw [Sql.bind, h]
    rfl
  cases v with
  | text s => exact .ok rfl
  | number x =>
    cases hx : x.isFinite with
    | false =>
      rw [Value.shape, Double.shape, hx]
      exact .refl _
    | true =>
      have exists_param {x : Double} (h : x.isFinite = true) : ∃ p, param (.number x) = .ok p := by
        rw [param, numberParam]
        split
        · exact ⟨_, rfl⟩
        · exact ⟨_, if_pos h⟩
      obtain ⟨p, hp⟩ := exists_param hx
      obtain ⟨p', hp'⟩ := exists_param (x.isFinite_shape.trans hx)
      rw [ok hp, Value.shape, ok hp']
      exact .ok rfl
  | group f => exact .error .group

/-- An equality is rendered as its shape. -/
theorem parallel_equals (c : Column) (v : Value) :
    Parallel (d.target.equals c v) (d.target.equals c v.shape) := by
  rw [Target.equals, Target.equals, Value.isNull_shape]
  refine parallel_column fun text => ?_
  split
  · exact .refl _
  · exact (parallel_bind v).bind fun _ _ _ h => parallel_slot rfl (by simp [h])

/-- A comparison is rendered as its shape. -/
theorem parallel_compare (op : Comparison) (c : Column) (v : Value) :
    Parallel (d.target.compare op c v) (d.target.compare op c v.shape) := by
  rw [Target.compare, Target.compare, Value.isNull_shape]
  split
  · exact .refl _
  · refine parallel_column fun text => ?_
    exact (parallel_bind v).bind fun _ _ _ h => parallel_slot rfl (by simp [h])

/-- A range is rendered as its shape. -/
theorem parallel_range (c : Column) (min max : Option Value) (inclusive : Bool) :
    Parallel (d.target.range c min max inclusive)
      (d.target.range c (boundShape min) (boundShape max) inclusive) := by
  have isNull (bound : Option Value) : Target.isNullBound (boundShape bound) = Target.isNullBound bound := by
    cases bound with
    | none => rfl
    | some v => exact v.isNull_shape
  rw [Target.range, Target.range, isNull, isNull]
  split
  · exact .refl _
  · refine parallel_column fun text => ?_
    cases min with
    | none =>
      cases max with
      | none => exact .refl _
      | some high => exact (parallel_bind high).bind fun _ _ _ h => parallel_slot rfl (by simp [h])
    | some low =>
      cases max with
      | none => exact (parallel_bind low).bind fun _ _ _ h => parallel_slot rfl (by simp [h])
      | some high =>
        refine (parallel_bind low).bind fun _ _ _ h => ?_
        refine (parallel_bind high).bind fun _ _ _ h' => ?_
        cases inclusive with
        | true => exact parallel_slot rfl (by simp [h, h'])
        | false => exact parallel_slot rfl (by simp [h, h'])

/-- All patterns are rendered alike. -/
theorem parallel_like (c : Column) (p q : String) : Parallel (like d c p) (like d c q) := by
  refine parallel_column fun text => ?_
  cases d <;> exact parallel_slot rfl rfl

/-- A likeness is rendered as its shape. -/
theorem parallel_fuzzy (f : Filter) : Parallel (fuzzy d f) (fuzzy d f.shape) := by
  cases f with
  | equals c v =>
    cases v with
    | text s =>
      have hnull := (Value.text s).isNull_shape
      rw [Value.shape] at hnull
      rw [Filter.shape, Value.shape, fuzzy, fuzzy, hnull]
      split
      · exact .refl _
      · refine parallel_column fun text => ?_
        cases d with
        | sqlite => exact .refl _
        | _ => exact parallel_slot rfl rfl
    | number x => exact .refl _
    | group g => exact .refl _
  | _ => exact .refl _

/-! ### Filters -/

/-- **A filter is rendered as its shape,** apart from the values. -/
theorem parallel_render (d : Dialect) (f : Filter) :
    Parallel (d.target.render f) (d.target.render f.shape) := by
  induction f using Filter.predicate_induction with
  | predicate f hf =>
    cases f with
    | literal v => exact .refl _
    | equals c v =>
      cases v with
      | group g => cases hf
      | text s => exact parallel_equals c (.text s)
      | number x => exact parallel_equals c (.number x)
    | compare op c v => exact parallel_compare op c v
    | like c p => exact parallel_like c p ""
    | wild c p => exact parallel_like c p ""
    | fuzzy g n => exact parallel_fuzzy g
    | range c min max inclusive => exact parallel_range c min max inclusive
    | boost g p => exact .refl _
    | and l r => cases hf
    | or l r => cases hf
    | must g => cases hf
    | mustNot g => cases hf
  | group c f ih => exact ih.bind fun _ _ _ h => parallel_slot rfl (by simpa using h)
  | and l r ihl ihr | or l r ihl ihr =>
    refine ihl.bind fun _ _ _ h => ihr.bind fun _ _ _ h' => parallel_slot rfl ?_
    simp [h, h']
  | must f ih => exact ih
  | mustNot f ih => exact ih.bind fun _ _ _ h => parallel_slot rfl (by simpa using h)

/-- **The text never depends on contents.** Of two filters of one shape a dialect renders both or
neither, and then with the same text and as many values. -/
theorem render_of_shape_eq {f g : Filter} (d : Dialect) (h : f.shape = g.shape) :
    ((∃ a, render d f = .ok a) ↔ ∃ b, render d g = .ok b) ∧
      ∀ a b, render d f = .ok a → render d g = .ok b →
        a.sql = b.sql ∧ a.params.length = b.params.length := by
  have hparallel : Parallel (d.target.render f) (d.target.render g) :=
    (parallel_render d f).of_common (h ▸ parallel_render d g)
  rw [render, render]
  generalize d.target.render f = x at hparallel ⊢
  generalize d.target.render g = y at hparallel ⊢
  cases hparallel with
  | error e => exact ⟨⟨nofun, nofun⟩, nofun⟩
  | ok hlength =>
    refine ⟨⟨fun _ => ⟨_, rfl⟩, fun _ => ⟨_, rfl⟩⟩, ?_⟩
    rintro a b ⟨⟩ ⟨⟩
    exact ⟨rfl, hlength⟩

/-- Quotes, placeholders and operators in a string leave the text as it is. -/
theorem sql_eq_of_contents :
    let f := Filter.or (.equals ⟨"a"⟩ (.text "x")) (.mustNot (.like ⟨"b"⟩ "y*"))
    let g := Filter.or (.equals ⟨"a"⟩ (.text "' OR $1 = ?")) (.mustNot (.like ⟨"b"⟩ "*--\"?*"))
    f.shape = g.shape ∧ ∃ a b, render .postgresql f = .ok a ∧ render .postgresql g = .ok b ∧
      a.sql = b.sql ∧ a.params.length = b.params.length := by
  intro f g
  have hshape : f.shape = g.shape := rfl
  exact ⟨hshape, _, _, rfl, rfl, (render_of_shape_eq .postgresql hshape).2 _ _ rfl rfl⟩

end Sql
end SearchFilter
