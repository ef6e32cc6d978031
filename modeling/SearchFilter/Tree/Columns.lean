/-
# Field references in a filter tree

Every column that the grammar has produced is looked up once more, with the columns
of groups: the base has to be a field, and only a structured field has parts. The
first refusal from left to right counts.
-/

import SearchFilter.Schema.Lookup
import SearchFilter.Tree.Basic

namespace SearchFilter

/-- Looks one column up. -/
def Column.check (s : Schema) (c : Column) : Except FieldError Unit :=
  match s.get? c.split.1, c.split.2 with
  | none, _ => s.refuse c.name .unknown
  | some f, some _ => if f.hasParts then .ok () else s.refuse c.name .notNested
  | some _, none => .ok ()

/-- Looks up every column of a filter. -/
def Filter.checkColumns (s : Schema) : Filter → Except FieldError Unit
  | .literal _ => .ok ()
  | .equals c (.group f) => do c.check s; f.checkColumns s
  | .equals c _ => c.check s
  | .compare _ c _ => c.check s
  | .and l r => do l.checkColumns s; r.checkColumns s
  | .or l r => do l.checkColumns s; r.checkColumns s
  | .must f => f.checkColumns s
  | .mustNot f => f.checkColumns s
  | .like c _ => c.check s
  | .wild c _ => c.check s
  | .fuzzy f _ => f.checkColumns s
  | .range c _ _ _ => c.check s
  | .boost f _ => f.checkColumns s

end SearchFilter
