/-
# Reports

The result of a command as text or as JSON. A rendered filter is reported with one
line for its text and one numbered line for each value; a blank query is reported as
no filter.
-/

import SearchFilter.Command.Arguments
import SearchFilter.Json.Printer
import SearchFilter.Tree.Json

namespace SearchFilter
namespace Command

/-- The report of a blank query. -/
def noFilter : String := "(no filter)"

/-- A numbered line for a value. -/
def valueLine (number : Nat) (value : String) : String :=
  "  [" ++ toString number ++ "] " ++ value

/-- A typed value of a PartiQL condition. -/
def attributeText : PartiQL.Attribute → String
  | .text s => "S " ++ Json.compact (.string s)
  | .number s => "N " ++ Json.compact (.string s)

/-- The values of a rendered filter, each on one line. -/
def valueTexts : Rendered → List String
  | .sql c => c.params.map Json.compact
  | .partiql c => c.attributes.map attributeText

/-- The lines of a rendered filter. -/
def renderedLines (r : Rendered) : List String :=
  r.text :: (valueTexts r).mapIdx fun i v => valueLine (i + 1) v

/-- The report of a compiled query. -/
def reportRendered (p : Provider) (r : Option Rendered) : Format → String
  | .json =>
    Json.pretty (.object
      [("provider", .string p.name), ("filter", (r.map Rendered.toJson).getD .null)])
  | .text =>
    match r with
    | none => noFilter
    | some r => "\n".intercalate (renderedLines r)

/-- The report of a filter tree. -/
def reportTree (f : Option Filter) : Format → String
  | .json => Json.pretty ((f.map Filter.toJson).getD .null)
  | .text =>
    match f with
    | none => noFilter
    | some f => Json.compact f.toJson

end Command
end SearchFilter
