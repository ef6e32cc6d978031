/-
# From clauses to filters

Lowering binds every clause to a column: its own field, the field of the group that
it stands in, or the default one. Without any of these a term or a phrase survives
as a bare value, and nothing else does.

| atom | filter |
| --- | --- |
| term with a bare `*` | `like` of the raw term |
| term with a bare `?` alone | `wild` of the raw term |
| any other term | `equals`, its backslashes resolved |
| phrase | `equals` |
| range | `range` |
| comparison | `compare`, with a number where a raw word writes a finite one |
-/

import SearchFilter.Grammar.Clause

namespace SearchFilter
namespace Grammar

/-- An atom that only a column can give a meaning to. -/
inductive Unbound where
  | range
  | comparison
deriving DecidableEq, Repr

/-- What an atom without a column is reported as. -/
def Unbound.message (u : Unbound) : String :=
  let what := match u with
    | range => "range"
    | comparison => "comparison"
  what ++ " needs a field and the schema declares no default field"

/-- Text as a value. -/
def textValue (s : List Char) : Value := .text (String.ofList s)

/-- The text value of a string is the string. -/
@[simp] theorem textValue_toList (s : String) : textValue s.toList = .text s := by
  rw [textValue, String.ofList_toList]

/-- What a comparison compares with: a word without backslashes that writes a finite
number is that number. -/
def Operand.value : Operand → Value
  | .quoted s => textValue s
  | .raw w =>
    match if w.contains '\\' then none else Decimal.finite? w with
    | some x => .number x
    | none => textValue (Text.unescape w)

/-- An operand is text, or the finite number that a word writes. -/
theorem Operand.value_cases (o : Operand) : (∃ s, o.value = textValue s) ∨
    ∃ w x, Decimal.finite? w = some x ∧ o.value = .number x := by
  cases o with
  | quoted s => exact .inl ⟨s, rfl⟩
  | raw w =>
    rw [value]
    split
    · rename_i x hx
      split at hx
      · cases hx
      · exact .inr ⟨w, x, hx, rfl⟩
    · exact .inl ⟨_, rfl⟩

/-- An atom without a column. -/
def Atom.unboundFilter : Atom → Except Unbound Filter
  | .term raw => .ok (.literal (textValue (Text.unescape raw)))
  | .phrase s => .ok (.literal (textValue s))
  | .range .. => .error .range
  | .compare .. => .error .comparison

/-- An atom that tests a column. -/
def Atom.filter (c : Column) : Atom → Filter
  | .term raw =>
    if Text.hasBare '*' raw then .like c (String.ofList raw)
    else if Text.hasBare '?' raw then .wild c (String.ofList raw)
    else .equals c (textValue (Text.unescape raw))
  | .phrase s => .equals c (textValue s)
  | .range min max inclusive => .range c (min.map textValue) (max.map textValue) inclusive
  | .compare op operand => .compare op c operand.value

/-- A field name as a column. -/
def columnOf (field : List Char) : Column := ⟨String.ofList field⟩

/-- The column of a name has the name. -/
@[simp] theorem columnOf_toList (name : String) : columnOf name.toList = ⟨name⟩ := by
  rw [columnOf, String.ofList_toList]

/-- Binds a clause; the column is the one for atoms without a field. -/
def Clause.lower : Option Column → Clause → Except Unbound Filter
  | column, .leaf field atom =>
    match (field.map columnOf).or column with
    | some c => .ok (atom.filter c)
    | none => atom.unboundFilter
  | _, .fieldGroup field inner => do
    let f ← inner.lower (some (columnOf field))
    .ok (.equals (columnOf field) (.group f))
  | column, .and l r => do
    let l ← l.lower column
    let r ← r.lower column
    .ok (.and l r)
  | column, .or l r => do
    let l ← l.lower column
    let r ← r.lower column
    .ok (.or l r)
  | column, .must c => return .must (← c.lower column)
  | column, .mustNot c => return .mustNot (← c.lower column)
  | column, .fuzzy c distance => return .fuzzy (← c.lower column) distance
  | column, .boost c power => return .boost (← c.lower column) power

/-- **With a column at hand every clause has a filter.** -/
theorem Clause.lower_isOk (column : Column) (c : Clause) :
    ∃ f, c.lower (some column) = .ok f := by
  induction c generalizing column with
  | leaf field atom => cases field <;> exact ⟨_, rfl⟩
  | fieldGroup field inner ih =>
    obtain ⟨f, hf⟩ := ih (columnOf field)
    exact ⟨_, by rw [Clause.lower, hf]; rfl⟩
  | and l r ihl ihr | or l r ihl ihr =>
    obtain ⟨f, hf⟩ := ihl column
    obtain ⟨g, hg⟩ := ihr column
    exact ⟨_, by rw [Clause.lower, hf, hg]; rfl⟩
  | must c ih | mustNot c ih | fuzzy c _ ih | boost c _ ih =>
    obtain ⟨f, hf⟩ := ih column
    exact ⟨_, by rw [Clause.lower, hf]; rfl⟩

end Grammar
end SearchFilter
