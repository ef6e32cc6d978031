/-
# The statements of a TOML text

A TOML text is a list of statements, one to a line:

| statement | line |
| --- | --- |
| `header path` | `[a.b]` |
| `element path` | `[[a.b]]` |
| `entry path v` | `a.b = v` |

A key is bare, made of letters, digits, `_` and `-`, or a string on one line. A value
is a string, a value without marks, an array or an inline table, and the last two may
go over several lines. Comments start with `#` and reach to the end of the line. A
mark of the byte order may stand before it all.
-/

import SearchFilter.Toml.Scalar
import SearchFilter.Toml.Table
import SearchFilter.Toml.Text

namespace SearchFilter
namespace Toml

/-- A statement. A value is kept as the JSON value of the same content. -/
inductive Statement where
  | header (path : List String)
  | element (path : List String)
  | entry (path : List String) (value : Json)

/-- The text behind a comment, if one starts here; a comment holds no control
characters. -/
def skipComment? : List Char → Option (List Char)
  | '#' :: r =>
    let rest := r.dropWhile fun c => !isControl c
    match rest with
    | [] => some []
    | '\n' :: _ => some rest
    | '\r' :: '\n' :: r => some ('\n' :: r)
    | _ => none
  | s => some s

/-- The text behind the end of a line, with blanks and a comment before it. -/
def endLine? (s : List Char) : Option (List Char) := do
  match ← skipComment? (skipGap s) with
  | [] => some []
  | '\n' :: r => some r
  | '\r' :: '\n' :: r => some r
  | _ => none

/-- The text behind any blanks, comments and ends of lines; the number bounds the
lines. -/
def skipLines? : Nat → List Char → Option (List Char)
  | 0, s => some s
  | bound + 1, s => do
    match ← skipComment? (skipGap s) with
    | '\n' :: r => skipLines? bound r
    | '\r' :: '\n' :: r => skipLines? bound r
    | r => some r

/-- A character of a bare key. -/
def isKeyPart (c : Char) : Bool := c.isAlphanum || c == '_' || c == '-'

/-- One key. -/
def key? (s : List Char) : Option (String × List Char) :=
  match s with
  | '"' :: _ => (string? s).map fun (k, r) => (String.ofList k, r)
  | '\'' :: _ => (string? s).map fun (k, r) => (String.ofList k, r)
  | s =>
    let k := s.takeWhile isKeyPart
    if k.isEmpty then none else some (String.ofList k, s.dropWhile isKeyPart)

/-- Keys with points between them; the number bounds the keys. -/
def path? : Nat → List Char → Option (List String × List Char)
  | 0, _ => none
  | bound + 1, s => do
    let (k, r) ← key? (skipGap s)
    match skipGap r with
    | '.' :: r =>
      let (ks, r) ← path? bound r
      some (k :: ks, r)
    | r => some ([k], r)

mutual

/-- One value; the number bounds the steps. -/
def value? : Nat → List Char → Option (Json × List Char)
  | 0, _ => none
  | bound + 1, s =>
    match s with
    | '"' :: _ => (text? s).map fun (t, r) => (.string (String.ofList t), r)
    | '\'' :: _ => (text? s).map fun (t, r) => (.string (String.ofList t), r)
    | '[' :: r => (items? bound r).map fun (vs, r) => (.array vs, r)
    | '\x7b' :: r => (members? bound [] r).map fun (es, r) => (.object (entriesToJson es), r)
    | s => (scalar? (spanScalar s).1).map fun v => (v, (spanScalar s).2)

/-- The elements of an array up to its bracket; a comma may stand behind the last. -/
def items? : Nat → List Char → Option (List Json × List Char)
  | 0, _ => none
  | bound + 1, s => do
    match ← skipLines? s.length s with
    | ']' :: r => some ([], r)
    | s =>
      let (v, r) ← value? bound s
      match ← skipLines? r.length r with
      | ']' :: r => some ([v], r)
      | ',' :: r =>
        let (vs, r) ← items? bound r
        some (v :: vs, r)
      | _ => none

/-- The members of an inline table up to its brace, after those that are read; a comma
may stand behind the last. -/
def members? : Nat → Entries → List Char → Option (Entries × List Char)
  | 0, _, _ => none
  | bound + 1, done, s => do
    match ← skipLines? s.length s with
    | '\x7d' :: r => some (done, r)
    | s =>
      let (path, r) ← path? s.length s
      let r ← behind? '=' r
      let (v, r) ← value? bound (skipGap r)
      let done ← setValue? v path done
      match ← skipLines? r.length r with
      | '\x7d' :: r => some (done, r)
      | ',' :: r => members? bound done r
      | _ => none

end

/-- One statement, without the end of its line. -/
def statement? (s : List Char) : Option (Statement × List Char) := do
  match s with
  | '[' :: '[' :: r =>
    let (path, r) ← path? r.length r
    match r with
    | ']' :: ']' :: r => some (.element path, r)
    | _ => none
  | '[' :: r =>
    let (path, r) ← path? r.length r
    match r with
    | ']' :: r => some (.header path, r)
    | _ => none
  | s =>
    let (path, r) ← path? s.length s
    match r with
    | '=' :: r =>
      let (v, r) ← value? (2 * s.length + 2) (skipGap r)
      some (.entry path v, r)
    | _ => none

/-- The statements of a text; the number bounds them. -/
def statementsWithin? : Nat → List Char → Option (List Statement)
  | 0, _ => none
  | bound + 1, s => do
    match ← skipLines? (s.length + 1) s with
    | [] => some []
    | s =>
      let (first, r) ← statement? s
      let rest ← statementsWithin? bound (← endLine? r)
      some (first :: rest)

/-- The text behind a mark of the byte order. -/
def skipOrderMark : List Char → List Char
  | '\uFEFF' :: r => r
  | s => s

/-- The statements of a text. -/
def statements? (text : String) : Option (List Statement) :=
  statementsWithin? (text.toList.length + 1) (skipOrderMark text.toList)

end Toml
end SearchFilter
