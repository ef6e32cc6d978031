/-
# Filters in PartiQL

PartiQL binds no identifiers and has no `LIKE`. A column is written as it stands, so
every part of its name has to be an identifier. Values stand in the text, strings
between apostrophes with inner ones doubled, and are listed beside it as typed
attributes.

| pattern | condition |
| --- | --- |
| contains a text | `contains(c, 'text')` |
| begins with it | `begins_with(c, 'text')` |
| is it | `c = 'text'` |
| matches anything | `c IS NOT MISSING` |

A bound of a range that reads as a finite number is written as a number.
-/

import SearchFilter.Json.Basic
import SearchFilter.Pattern.Shape
import SearchFilter.Render.Target
import SearchFilter.Text.Identifier
import SearchFilter.Text.Quoted

namespace SearchFilter
namespace PartiQL

/-- A typed value: a string, or a number by its text. -/
inductive Attribute where
  | text (s : String)
  | number (s : String)
deriving DecidableEq, Repr

/-- The value inside an attribute. -/
def Attribute.content : Attribute → String
  | text s => s
  | number s => s

/-- The written form of an attribute: its type names the only member. -/
def Attribute.toJson : Attribute → Json
  | text s => .object [("S", .string s)]
  | number s => .object [("N", .string s)]

/-- The parts of a name between points. -/
def segments : List Char → List (List Char)
  | [] => [[]]
  | c :: r =>
    if c = '.' then [] :: segments r
    else
      match segments r with
      | s :: rest => (c :: s) :: rest
      | [] => [[c]]

/-- The text of a column. -/
def path (c : Column) : Except RenderError (List Char) :=
  if (segments c.name.toList).all Text.isIdentifier then .ok c.name.toList
  else .error (.unsafeIdentifier c.name)

/-- A string in the text and in the list. -/
def string (s : String) : Fragment Attribute := ⟨Text.enclose '\'' s.toList, [.text s]⟩

/-- The text of a number: an integer where it has no fraction and fits 64 bits, and
the fewest digits without an exponent otherwise. -/
def numberText (x : Double) : String :=
  match x.toInt63? with
  | some i => String.ofList (Decimal.ofInt i)
  | none => RenderError.numberText x

/-- A number in the text and in the list. -/
def number (x : Double) : Fragment Attribute := ⟨(numberText x).toList, [.number (numberText x)]⟩

/-- A value in the text and in the list. -/
def value : Value → Except RenderError (Fragment Attribute)
  | .text s => .ok (string s)
  | .number x => .ok (number x)
  | .group _ => .error .group

/-- A bound of a range; a string that writes a finite number is one. -/
def bound (v : Value) : Except RenderError (Fragment Attribute) :=
  match v with
  | .text s =>
    match Decimal.finite? s.toList with
    | some x => .ok (number x)
    | none => .ok (string s)
  | v => value v

/-- A match with a pattern of one of the known shapes. -/
def like (c : Column) (pattern : String) : Except RenderError (Fragment Attribute) := do
  let column ← path c
  match Pattern.shape? pattern with
  | none => .error (.innerWildcard pattern)
  | some (.contains s) =>
    .ok (.word "contains(" ++ .plain column ++ .word ", " ++ string s ++ .word ")")
  | some (.beginsWith s) =>
    .ok (.word "begins_with(" ++ .plain column ++ .word ", " ++ string s ++ .word ")")
  | some (.exact s) => .ok (.plain column ++ .word " = " ++ string s)
  | some .any => .ok (.plain column ++ .word " IS NOT MISSING")

/-- PartiQL as a target. -/
def target : Target Attribute where
  column := path
  absent column := "(".toList ++ column ++ " IS NULL OR ".toList ++ column ++ " IS MISSING)".toList
  value := value
  bound := bound
  like := like
  wild _ _ := .error .singleWildcard
  fuzzy _ := .error (.noFuzzy "PartiQL")

/-- A filter in PartiQL. -/
structure Condition where
  statement : String
  attributes : List Attribute

/-- Renders a filter. -/
def render (f : Filter) : Except RenderError Condition := do
  let fragment ← target.render f
  .ok ⟨String.ofList fragment.text, fragment.values⟩

/-- The written form of a rendered filter. -/
def Condition.toJson (c : Condition) : Json :=
  .object [("statement", .string c.statement),
    ("attribute_values", .array (c.attributes.map Attribute.toJson))]

/-- A name has one part more than it has points. -/
theorem segments_length (s : List Char) : (segments s).length = s.count '.' + 1 := by
  induction s with
  | nil => rfl
  | cons c r ih =>
    by_cases h : c = '.'
    · simp [segments, h, ih]
    · cases hs : segments r with
      | nil => simp [hs] at ih
      | cons a rest => simp_all [segments]

end PartiQL
end SearchFilter
