/-
# Tables of a TOML document

Each table remembers how it came about, because that decides whether it may be
opened or made longer later:

| origin | created by | own header | dotted keys |
| --- | --- | --- | --- |
| `implied` | being a step of a header's path | yes, once | yes |
| `headed` | its own header | no | no |
| `dotted` | a dotted key | no | yes |

A key holds one thing only, and a header's path goes through the last element of an
array of tables.
-/

import SearchFilter.Json.Basic

namespace SearchFilter
namespace Toml

/-- How a table came about. -/
inductive Origin where
  | implied
  | headed
  | dotted
deriving DecidableEq, Repr

/-- What stands under a key. -/
inductive Node where
  | value (v : Json)
  | table (origin : Origin) (entries : List (String × Node))
  /-- an array of tables: the finished ones, and the one that is still open -/
  | tables (done : List (List (String × Node))) (last : List (String × Node))

/-- The members of a table. -/
abbrev Entries := List (String × Node)

/-- Changes what stands under a key, or puts something there. -/
def alter? (key : String) (change : Option Node → Option Node) : Entries → Option Entries
  | [] => (change none).map fun n => [(key, n)]
  | (k, n) :: rest =>
    if k == key then (change (some n)).map fun n => (k, n) :: rest
    else (alter? key change rest).map ((k, n) :: ·)

/-- Opens the table of a header. -/
def openTable? : List String → Entries → Option Entries
  | [], _ => none
  | [k], es =>
    alter? k (fun
      | none => some (.table .headed [])
      | some (.table .implied inner) => some (.table .headed inner)
      | some _ => none) es
  | k :: rest, es =>
    alter? k (fun
      | none => (openTable? rest []).map (.table .implied)
      | some (.table origin inner) => (openTable? rest inner).map (.table origin)
      | some (.tables done last) => (openTable? rest last).map (.tables done)
      | some (.value _) => none) es

/-- Adds an element to the array of tables of a header. -/
def addElement? : List String → Entries → Option Entries
  | [], _ => none
  | [k], es =>
    alter? k (fun
      | none => some (.tables [] [])
      | some (.tables done last) => some (.tables (done ++ [last]) [])
      | some _ => none) es
  | k :: rest, es =>
    alter? k (fun
      | none => (addElement? rest []).map (.table .implied)
      | some (.table origin inner) => (addElement? rest inner).map (.table origin)
      | some (.tables done last) => (addElement? rest last).map (.tables done)
      | some (.value _) => none) es

/-- Puts a value under a dotted key. -/
def setValue? (v : Json) : List String → Entries → Option Entries
  | [], _ => none
  | [k], es =>
    alter? k (fun
      | none => some (.value v)
      | some _ => none) es
  | k :: rest, es =>
    alter? k (fun
      | none => (setValue? v rest []).map (.table .dotted)
      | some (.table .headed _) => none
      | some (.table origin inner) => (setValue? v rest inner).map (.table origin)
      | some _ => none) es

/-- Puts a value under a dotted key of the table that a path leads to. -/
def setValueAt? (v : Json) (key : List String) : (path : List String) → Entries → Option Entries
  | [], es => setValue? v key es
  | k :: rest, es =>
    alter? k (fun
      | some (.table origin inner) => (setValueAt? v key rest inner).map (.table origin)
      | some (.tables done last) => (setValueAt? v key rest last).map (.tables done)
      | _ => none) es

mutual

/-- What stands under a key as a JSON value. -/
def Node.toJson : Node → Json
  | .value v => v
  | .table _ es => .object (entriesToJson es)
  | .tables done last => .array (tablesToJson done ++ [.object (entriesToJson last)])

/-- The members of a table as those of a JSON object. -/
def entriesToJson : List (String × Node) → List (String × Json)
  | [] => []
  | (k, n) :: rest => (k, n.toJson) :: entriesToJson rest

/-- Tables as JSON objects. -/
def tablesToJson : List (List (String × Node)) → List Json
  | [] => []
  | es :: rest => .object (entriesToJson es) :: tablesToJson rest

end

/-- A header may come after the tables inside its own, but only once. -/
example : ((openTable? ["a", "b"] []).bind (openTable? ["a"])).isSome = true ∧
    ((openTable? ["a"] []).bind (openTable? ["a"])).isSome = false := by
  decide +kernel

end Toml
end SearchFilter
