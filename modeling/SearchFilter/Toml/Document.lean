/-
# TOML documents

The statements of a text build a tree of tables, one after the other; the last header
says which table the entries below it go to.
-/

import SearchFilter.Toml.Statement

namespace SearchFilter
namespace Toml

/-- The tree after one more statement, with the path of the table that is open. -/
def Statement.apply? : (List String × Entries) → Statement → Option (List String × Entries)
  | (_, es), .header path => (openTable? path es).map fun es => (path, es)
  | (_, es), .element path => (addElement? path es).map fun es => (path, es)
  | (path, es), .entry key v => (setValueAt? v key path es).map fun es => (path, es)

/-- The document of a list of statements. -/
def document? (ss : List Statement) : Option Json := do
  let (_, es) ← ss.foldlM Statement.apply? ([], [])
  some (.object (entriesToJson es))

/-- Reads a TOML text as one JSON object. -/
def parse? (text : String) : Option Json := (statements? text).bind document?

end Toml
end SearchFilter
