/-
# Providers

A provider names a target: one of the SQL dialects, or DynamoDB, which takes PartiQL.
-/

import SearchFilter.Render.PartiQL
import SearchFilter.Render.Sql
import SearchFilter.Schema.Field
import SearchFilter.Setup
import SearchFilter.Text.Blank

namespace SearchFilter

/-- A target that filters are rendered for. -/
inductive Provider where
  | sql (dialect : Sql.Dialect)
  | dynamodb
deriving DecidableEq, Repr

/-- A rendered filter. -/
inductive Rendered where
  | sql (clause : Sql.Clause)
  | partiql (condition : PartiQL.Condition)

namespace Rendered

/-- The text of a rendered filter. -/
def text : Rendered → String
  | sql c => c.sql
  | partiql c => c.statement

/-- The number of values that go with the text. -/
def valueCount : Rendered → Nat
  | sql c => c.params.length
  | partiql c => c.attributes.length

/-- The written form of a rendered filter. -/
def toJson : Rendered → Json
  | sql c => c.toJson
  | partiql c => c.toJson

end Rendered

namespace Provider

/-- All providers. -/
def all : List Provider := Sql.Dialect.all.map .sql ++ [.dynamodb]

/-- The written name of a provider. -/
def name : Provider → String
  | sql d => d.name
  | dynamodb => "dynamodb"

/-- The dialect of a provider that takes SQL. -/
def dialect? : Provider → Option Sql.Dialect
  | sql d => some d
  | dynamodb => none

/-- The provider of a written name, or of the short name `postgres`. -/
def ofName? (s : String) : Option Provider :=
  if s = "postgres" then some (.sql .postgresql) else all.find? fun p => p.name == s

/-- Reads a name as a user gives it: blanks around it and the case of letters are
ignored. -/
def ofText (s : String) : Except SetupError Provider :=
  match ofName? (String.ofList (Text.lower (Text.trim s.toList))) with
  | some p => .ok p
  | none => .error (.unknownProvider s)

/-- Reads the written form of a provider. -/
def ofJson? (v : Json) : Option Provider := v.choice?.bind ofName?

/-- Renders a filter for a provider. -/
def render (p : Provider) (f : Filter) : Except RenderError Rendered :=
  match p with
  | sql d => (Sql.render d f).map .sql
  | dynamodb => (PartiQL.render f).map .partiql

/-- The name of a provider is read as that provider. -/
theorem ofName?_name (p : Provider) : ofName? p.name = some p := by
  rcases p with d | _
  · cases d <;> decide +kernel
  · decide +kernel

end Provider

/-- Reads the written form of a dialect. -/
def Sql.Dialect.ofJson? (v : Json) : Option Sql.Dialect := v.choice?.bind Sql.Dialect.ofName?

end SearchFilter
