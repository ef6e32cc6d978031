/-
# Rendering a filter for a target

The boolean structure of a filter is written the same way for every target:

| filter | text |
| --- | --- |
| `and l r`, `or l r` | `(l) AND (r)`, `(l) OR (r)` |
| `mustNot f` | `NOT (f)` |
| `must f` | as `f` |
| `equals c` of a group `f` | `(f)` |

Targets differ in how they write a column and a value, in the test for an absent
value, and in patterns and fuzzy matching. A fragment carries, beside its text, the
values that belong to it from left to right.
-/

import SearchFilter.Render.Error
import SearchFilter.Tree.Basic

namespace SearchFilter

/-- A piece of rendered text with its values. -/
structure Fragment (α : Type) where
  text : List Char
  values : List α

namespace Fragment

/-- Text without values. -/
def plain {α : Type} (text : List Char) : Fragment α := ⟨text, []⟩

/-- One fragment after another. -/
def append {α : Type} (a b : Fragment α) : Fragment α := ⟨a.text ++ b.text, a.values ++ b.values⟩

instance {α : Type} : Append (Fragment α) := ⟨append⟩

/-- A fixed word as a fragment. -/
def word {α : Type} (s : String) : Fragment α := plain s.toList

/-- The text of two fragments is the one text behind the other. -/
@[simp] theorem text_append {α : Type} (a b : Fragment α) : (a ++ b).text = a.text ++ b.text := rfl

/-- The values of two fragments are the values of the one and then of the other. -/
@[simp] theorem values_append {α : Type} (a b : Fragment α) :
    (a ++ b).values = a.values ++ b.values := rfl

/-- A fragment between parentheses. -/
def grouped {α : Type} (a : Fragment α) : Fragment α := word "(" ++ a ++ word ")"

/-- Two fragments between parentheses with an operator between them. -/
def joined {α : Type} (operator : String) (a b : Fragment α) : Fragment α :=
  a.grouped ++ word operator ++ b.grouped

/-- Parentheses bring no values. -/
@[simp] theorem values_grouped {α : Type} (a : Fragment α) : a.grouped.values = a.values := by
  simp [grouped, word, plain]

/-- An operator between two fragments brings no values. -/
@[simp] theorem values_joined {α : Type} (operator : String) (a b : Fragment α) :
    (joined operator a b).values = a.values ++ b.values := by
  simp [joined, word, plain]

end Fragment

/-- What a target decides for itself. -/
structure Target (α : Type) where
  /-- the text of a column -/
  column : Column → Except RenderError (List Char)
  /-- the test that the column of this text has no value -/
  absent : List Char → List Char
  /-- a value that a column is tested against -/
  value : Value → Except RenderError (Fragment α)
  /-- a bound of a range -/
  bound : Value → Except RenderError (Fragment α)
  /-- a match with a pattern that has stars -/
  like : Column → String → Except RenderError (Fragment α)
  /-- a match with a pattern that has question marks alone -/
  wild : Column → String → Except RenderError (Fragment α)
  /-- fuzzy matching of a filter -/
  fuzzy : Filter → Except RenderError (Fragment α)

namespace Target

variable {α : Type}

/-- The test that a column equals a value. -/
def equals (t : Target α) (c : Column) (v : Value) : Except RenderError (Fragment α) := do
  let column ← t.column c
  if v.isNull then .ok (.plain (t.absent column))
  else
    let v ← t.value v
    .ok (.plain column ++ .word " = " ++ v)

/-- The test of an order. -/
def compare (t : Target α) (op : Comparison) (c : Column) (v : Value) :
    Except RenderError (Fragment α) :=
  if v.isNull then .error (.unordered "comparison" c.name)
  else do
    let column ← t.column c
    let v ← t.value v
    .ok (.plain column ++ .word (" " ++ op.sign ++ " ") ++ v)

/-- Whether a bound is the word `null`. -/
def isNullBound : Option Value → Bool
  | none => false
  | some v => v.isNull

/-- The test that a column lies in a range. -/
def range (t : Target α) (c : Column) (min max : Option Value) (inclusive : Bool) :
    Except RenderError (Fragment α) :=
  if isNullBound min || isNullBound max then .error (.unordered "range" c.name)
  else do
    let column ← t.column c
    match min, max with
    | none, none => .error .openRange
    | some low, none =>
      let low ← t.bound low
      .ok (.plain column ++ .word (if inclusive then " >= " else " > ") ++ low)
    | none, some high =>
      let high ← t.bound high
      .ok (.plain column ++ .word (if inclusive then " <= " else " < ") ++ high)
    | some low, some high =>
      let low ← t.bound low
      let high ← t.bound high
      if inclusive then
        .ok (.plain column ++ .word " BETWEEN " ++ low ++ .word " AND " ++ high)
      else
        .ok (.word "(" ++ .plain column ++ .word " > " ++ low ++ .word " AND " ++ .plain column ++
          .word " < " ++ high ++ .word ")")

/-- Renders a filter. The first thing from the left that the target cannot express
is reported. -/
def render (t : Target α) : Filter → Except RenderError (Fragment α)
  | .literal _ => .error .bareValue
  | .equals _ (.group f) => return (← t.render f).grouped
  | .equals c v => t.equals c v
  | .compare op c v => t.compare op c v
  | .and l r => do
    let l ← t.render l
    let r ← t.render r
    .ok (.joined " AND " l r)
  | .or l r => do
    let l ← t.render l
    let r ← t.render r
    .ok (.joined " OR " l r)
  | .must f => t.render f
  | .mustNot f => return .word "NOT " ++ (← t.render f).grouped
  | .like c p => t.like c p
  | .wild c p => t.wild c p
  | .fuzzy f _ => t.fuzzy f
  | .range c min max inclusive => t.range c min max inclusive
  | .boost _ _ => .error .boost

end Target
end SearchFilter
