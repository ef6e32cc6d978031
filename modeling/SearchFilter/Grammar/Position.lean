/-
# Where the grammar refuses a query

A query that the grammar refuses is explained by the place that was reached
furthest: its line and column, counted in characters from 1, and the character that
was found there, if one is known.
-/

import SearchFilter.Grammar.Lowering

namespace SearchFilter
namespace Grammar

/-- A place in a text, with what was found there. -/
structure Position where
  line : Nat
  column : Nat
  found : Option Char
deriving DecidableEq, Repr

/-- The line and the column behind a text. -/
def lineAndColumn (before : List Char) : Nat × Nat :=
  (before.count '\n' + 1, (before.reverse.takeWhile (· != '\n')).length + 1)

/-- The place of a note in a text that it was made in. -/
def positionOf (text : List Char) (n : Note) : Position :=
  let (line, column) := lineAndColumn (text.take (text.length - n.rest.length))
  ⟨line, column, n.found?⟩

/-- The position in words. -/
def Position.message (p : Position) : String :=
  let found := match p.found with
    | some c => "'" ++ c.toString ++ "'"
    | none => "end of input"
  "line " ++ toString p.line ++ ", column " ++ toString p.column ++ " (found " ++ found ++ ")"

/-- Why a text is no query. -/
inductive SyntaxError where
  /-- the grammar refuses it -/
  | unreadable (position : Position)
  /-- an atom has no column -/
  | unbound (atom : Unbound)
deriving DecidableEq, Repr

/-- The message of a syntax error. -/
def SyntaxError.message : SyntaxError → String
  | unreadable p => p.message
  | unbound u => u.message

/-- The clause that a text writes. -/
def clause? (text : List Char) : Except Position Clause :=
  match query text with
  | ⟨some (c, _), _⟩ => .ok c
  | ⟨none, notes⟩ =>
    .error (positionOf text ((Note.furthest notes).getD ⟨text, .unexpected, false⟩))

/-- The filter that a query text writes, with the default column for words without a
field. A blank text is no filter. -/
def filter? (column : Option Column) (text : String) : Except SyntaxError (Option Filter) :=
  if Text.allBlank text.toList then .ok none
  else
    match clause? text.toList with
    | .error p => .error (.unreadable p)
    | .ok c =>
      match c.lower column with
      | .error u => .error (.unbound u)
      | .ok f => .ok (some f)

/-- A blank text is no filter, whatever the default column. -/
theorem filter?_of_allBlank {text : String} (h : Text.allBlank text.toList = true)
    (column : Option Column) : filter? column text = .ok none := by
  simp [filter?, h]

end Grammar
end SearchFilter
