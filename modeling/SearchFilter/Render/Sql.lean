/-
# Filters in SQL

The body of a `WHERE` clause for three dialects. Every value is bound: in the text
stands a placeholder, and the value is a parameter.

| | `postgresql` | `mysql` | `sqlite` |
| --- | --- | --- | --- |
| identifier | between `"` | between U+0060 | between `"` |
| placeholder | `$1`, `$2`, … | `?` | `?` |
| part of a column | `base->>'part'` | `JSON_UNQUOTE(JSON_EXTRACT(…))` | `JSON_EXTRACT(…)` |
| pattern | `ILIKE` | `LOWER(…) LIKE LOWER(…)` | `LIKE … ESCAPE '\'` |
| fuzzy | `similarity(…) > 0.3` | `SOUNDEX(…)` | none |

A plain column is quoted and may have any name. Base and part of a dotted column are
written unquoted and have to be identifiers.
-/

import SearchFilter.Json.Basic
import SearchFilter.Pattern.Like
import SearchFilter.Render.Target
import SearchFilter.Text.Identifier
import SearchFilter.Text.Quoted

namespace SearchFilter
namespace Sql

/-- A dialect. -/
inductive Dialect where
  | postgresql
  | mysql
  | sqlite
deriving DecidableEq, Repr

namespace Dialect

/-- All dialects. -/
def all : List Dialect := [.postgresql, .mysql, .sqlite]

/-- The written name of a dialect. -/
def name : Dialect → String
  | postgresql => "postgresql"
  | mysql => "mysql"
  | sqlite => "sqlite"

/-- The dialect of a written name. -/
def ofName? (s : String) : Option Dialect := all.find? fun d => d.name == s

/-- The character between two of which an identifier stands. -/
def quote : Dialect → Char
  | mysql => '\x60'
  | _ => '"'

/-- A quoted identifier. -/
def identifier (d : Dialect) (name : String) : List Char := Text.enclose d.quote name.toList

/-- The access to a part of a structured column. -/
def accessor (d : Dialect) (base part : List Char) : List Char :=
  match d with
  | postgresql => base ++ "->>'".toList ++ part ++ "'".toList
  | mysql => "JSON_UNQUOTE(JSON_EXTRACT(".toList ++ base ++ ",'$.".toList ++ part ++ "'))".toList
  | sqlite => "JSON_EXTRACT(".toList ++ base ++ ",'$.".toList ++ part ++ "')".toList

/-- The text of a column. -/
def column (d : Dialect) (c : Column) : Except RenderError (List Char) :=
  match c.split with
  | (base, some part) =>
    if Text.isIdentifier base.toList && Text.isIdentifier part.toList then
      .ok (d.accessor base.toList part.toList)
    else .error (.unsafeIdentifier c.name)
  | (name, none) => .ok (d.identifier name)

end Dialect

/-- A number as a parameter: an integer where it has no fraction and fits 64 bits. -/
def numberParam (x : Double) : Except RenderError Json :=
  match x.toInt63? with
  | some i => .ok (.number (.integer i))
  | none => if x.isFinite then .ok (.number (.real x)) else .error (.number x)

/-- A value as a parameter. -/
def param : Value → Except RenderError Json
  | .text s => .ok (.string s)
  | .number x => numberParam x
  | .group _ => .error .group

/-- A value as a placeholder with its parameter. -/
def bind (v : Value) : Except RenderError (Fragment Json) := do
  let p ← param v
  .ok ⟨['?'], [p]⟩

/-- A match with a pattern; letter case is ignored. -/
def like (d : Dialect) (c : Column) (pattern : String) : Except RenderError (Fragment Json) := do
  let column ← d.column c
  let slot : Fragment Json := ⟨['?'], [.string (Pattern.toLike pattern)]⟩
  match d with
  | .postgresql =>
    let cast := if c.split.2.isSome then " ILIKE " else "::text ILIKE "
    .ok (.plain column ++ .word cast ++ slot)
  | .mysql => .ok (.word "LOWER(" ++ .plain column ++ .word ") LIKE LOWER(" ++ slot ++ .word ")")
  | .sqlite => .ok (.plain column ++ .word " LIKE " ++ slot ++ .word " ESCAPE '\\'")

/-- Fuzzy matching of one word in one column. The distance plays no part. -/
def fuzzy (d : Dialect) : Filter → Except RenderError (Fragment Json)
  | .equals c (.text s) =>
    if (Value.text s).isNull then .error .fuzzyNull
    else do
      let column ← d.column c
      let slot : Fragment Json := ⟨['?'], [.string s]⟩
      match d with
      | .postgresql =>
        .ok (.word "similarity(" ++ .plain column ++ .word ", " ++ slot ++ .word ") > 0.3")
      | .mysql =>
        .ok (.word "SOUNDEX(" ++ .plain column ++ .word ") = SOUNDEX(" ++ slot ++ .word ")")
      | .sqlite => .error (.noFuzzy "sqlite")
  | _ => .error .fuzzyOperand

/-- A dialect as a target. -/
def Dialect.target (d : Dialect) : Target Json where
  column := d.column
  absent column := column ++ " IS NULL".toList
  value := bind
  bound := bind
  like := like d
  wild := like d
  fuzzy := fuzzy d

/-- Numbers the question marks of a text as `$1`, `$2`, …, those between apostrophes
apart. -/
def numbered : (quoted : Bool) → (count : Nat) → List Char → List Char
  | _, _, [] => []
  | quoted, count, c :: r =>
    if c = '\'' then c :: numbered (!quoted) count r
    else if c = '?' ∧ quoted = false then
      '$' :: (Decimal.ofNat (count + 1) ++ numbered quoted (count + 1) r)
    else c :: numbered quoted count r

/-- The placeholders of a text in the form of a dialect. -/
def Dialect.placed (d : Dialect) (text : List Char) : List Char :=
  match d with
  | .postgresql => numbered false 0 text
  | _ => text

/-- A filter in SQL. -/
structure Clause where
  sql : String
  params : List Json

/-- Renders a filter for a dialect. -/
def render (d : Dialect) (f : Filter) : Except RenderError Clause := do
  let fragment ← d.target.render f
  .ok ⟨String.ofList (d.placed fragment.text), fragment.values⟩

/-- The written form of a rendered filter. -/
def Clause.toJson (c : Clause) : Json :=
  .object [("sql", .string c.sql), ("params", .array c.params)]

/-- The name of a dialect is read as that dialect. -/
theorem Dialect.ofName?_name (d : Dialect) : Dialect.ofName? d.name = some d := by
  cases d <;> decide +kernel

/-- A text without question marks has no placeholders to number. -/
theorem numbered_of_not_mem {s : List Char} (h : '?' ∉ s) (quoted : Bool) (count : Nat) :
    numbered quoted count s = s := by
  induction s generalizing quoted with
  | nil => rfl
  | cons c r ih =>
    simp only [List.mem_cons, not_or] at h
    simp [numbered, ih h.2, Ne.symm h.1]

end Sql
end SearchFilter
