/-
# The grammar of queries

    query    := conjunction ("OR" conjunction)*
    conjunction := unary ("AND"? unary)*
    unary    := prefix* modified
    prefix   := "!" | "+" | "-" | "NOT"
    modified := (fielded | unfielded) ("~" integer?)? ("^" decimal)?
    fielded  := name ":" (group | range | comparison | phrase | term)
    unfielded := group | range | phrase | term
    group    := "(" query ")"
    range    := "[" bound "TO" bound "]" | "{" bound "TO" bound "}"
    comparison := (">=" | "<=" | ">" | "<") (phrase | term)

Keywords are read in any case, and `&&`, `||` and `!` stand for them. Blanks may
stand around a prefix, a unary, a keyword and a bound. A modified clause has to end
at a blank, a parenthesis or the end of the text.
-/

import SearchFilter.Grammar.Word
import SearchFilter.Text.Escape
import SearchFilter.Tree.Basic

namespace SearchFilter
namespace Grammar

/-- What a comparison compares with. -/
inductive Operand where
  | quoted (text : List Char)
  | raw (word : List Char)
deriving DecidableEq, Repr

/-- What a single column is tested for. -/
inductive Atom where
  /-- a term with its backslashes -/
  | term (raw : List Char)
  | phrase (text : List Char)
  /-- an open bound is left out -/
  | range (min max : Option (List Char)) (inclusive : Bool)
  | compare (op : Comparison) (operand : Operand)
deriving DecidableEq, Repr

/-- A query as it is written, before its words are bound to columns. -/
inductive Clause where
  | leaf (field : Option (List Char)) (atom : Atom)
  | fieldGroup (field : List Char) (inner : Clause)
  | and (left right : Clause)
  | or (left right : Clause)
  | must (inner : Clause)
  | mustNot (inner : Clause)
  | fuzzy (inner : Clause) (distance : Option Nat)
  | boost (inner : Clause) (power : Double)
deriving DecidableEq, Repr

/-- A sign in front of a clause. -/
inductive Prefix where
  | must
  | mustNot
deriving DecidableEq, Repr

/-- Puts a run of prefixes in front of a clause: an odd number of negations negates
it, and otherwise any `+` requires it. -/
def Clause.prefixed (ps : List Prefix) (c : Clause) : Clause :=
  if ps.count .mustNot % 2 = 1 then .mustNot c
  else if ps.contains .must then .must c
  else c

/-- Puts suffixes behind a clause. -/
def Clause.suffixed (c : Clause) (fuzzy : Option (Option Nat)) (boost : Option Double) : Clause :=
  let c := match fuzzy with
    | some distance => .fuzzy c distance
    | none => c
  match boost with
  | some power => .boost c power
  | none => c

/-- A bound of a range: a phrase, a term, or a lone `*` for an open one. -/
def bound : Reader (Option (List Char)) :=
  .orElse (some <$> phrase)
    ((fun t => if t = ['*'] then none else some (Text.unescape t)) <$> term)

/-- Two bounds between brackets. -/
def between (opening closing : Char) (inclusive : Bool) : Reader Atom := do
  let _ ← Reader.just opening
  let min ← Reader.padded bound
  keyword "TO" "TO"
  let max ← Reader.padded bound
  let _ ← Reader.just closing
  pure (.range min max inclusive)

/-- A range. -/
def range : Reader Atom :=
  .labelled (.orElse (between '[' ']' true) (between '\x7b' '\x7d' false))

/-- The sign of a comparison. -/
def comparisonSign : Reader Comparison :=
  .choice [
    (fun _ => .greaterEq) <$> Reader.literal ['>', '='],
    (fun _ => .lessEq) <$> Reader.literal ['<', '='],
    (fun _ => .greater) <$> Reader.just '>',
    (fun _ => .less) <$> Reader.just '<']

/-- A comparison. -/
def comparison : Reader Atom :=
  .labelled do
    let op ← comparisonSign
    let operand ← Reader.orElse (Operand.quoted <$> phrase) (Operand.raw <$> term)
    pure (.compare op operand)

/-- A query between parentheses. -/
def group (clause : Reader Clause) : Reader Clause :=
  .labelled do
    let _ ← Reader.just '('
    let c ← Reader.padded clause
    let _ ← Reader.just ')'
    pure c

/-- A clause that names its field. -/
def fielded (clause : Reader Clause) : Reader Clause := do
  let field ← fieldName
  let _ ← Reader.just ':'
  Reader.choice [
    Clause.fieldGroup field <$> group clause,
    Clause.leaf (some field) <$> range,
    Clause.leaf (some field) <$> comparison,
    (fun p => Clause.leaf (some field) (.phrase p)) <$> phrase,
    (fun t => Clause.leaf (some field) (.term t)) <$> term]

/-- A clause without a field. -/
def unfielded (clause : Reader Clause) : Reader Clause :=
  .choice [
    group clause,
    Clause.leaf none <$> range,
    (fun p => Clause.leaf none (.phrase p)) <$> phrase,
    (fun t => Clause.leaf none (.term t)) <$> bareTerm]

/-- Where a clause may end. -/
def boundary : Reader Unit :=
  .labelled <| .ahead <|
    .orElse ((fun _ => ()) <$> Reader.char fun c => Text.isBlank c || c == '(' || c == ')')
      Reader.atEnd

/-- A fuzzy suffix with its distance, if there is one. -/
def fuzzySuffix : Reader (Option Nat) :=
  .labelled do
    let _ ← Reader.just '~'
    Reader.opt integer

/-- A boost suffix with its power. -/
def boostSuffix : Reader Double :=
  .labelled do
    let _ ← Reader.just '^'
    decimal

/-- A clause with its suffixes, up to where it has to end. -/
def modified (clause : Reader Clause) : Reader Clause := do
  let c ← Reader.orElse (fielded clause) (unfielded clause)
  let fuzzy ← Reader.opt fuzzySuffix
  let boost ← Reader.opt boostSuffix
  boundary
  pure (c.suffixed fuzzy boost)

/-- One prefix with the blanks around it. -/
def signPrefix : Reader Prefix :=
  .padded <| .choice [
    (fun _ => .mustNot) <$> Reader.just '!',
    (fun _ => .must) <$> Reader.just '+',
    (fun _ => .mustNot) <$> Reader.just '-',
    (fun _ => .mustNot) <$> keyword "NOT" "!"]

/-- A clause with its prefixes. -/
def unary (clause : Reader Clause) : Reader Clause :=
  .padded do
    let ps ← Reader.many signPrefix
    let c ← modified clause
    pure (c.prefixed ps)

/-- Clauses side by side, with or without `AND` between them. -/
def conjunction (clause : Reader Clause) : Reader Clause := do
  let first ← unary clause
  let rest ← Reader.many do
    let _ ← Reader.opt (Reader.padded (keyword "AND" "&&"))
    unary clause
  pure (rest.foldl .and first)

/-- Conjunctions with `OR` between them. -/
def disjunction (clause : Reader Clause) : Reader Clause := do
  let first ← conjunction clause
  let rest ← Reader.many do
    Reader.padded (keyword "OR" "||")
    conjunction clause
  pure (rest.foldl .or first)

/-- A query whose groups are nested less deep than the number says. -/
def clauseWithin : Nat → Reader Clause
  | 0, _ => ⟨none, []⟩
  | bound + 1, s => disjunction (clauseWithin bound) s

/-- A whole query: every group in it takes a character of the text, so that its
length bounds their depth. -/
def query : Reader Clause := fun s =>
  (do
    let c ← Reader.padded (clauseWithin (s.length + 1))
    Reader.atEnd
    pure c : Reader Clause) s

/-- Two negations cancel, and a `+` beside them still requires. -/
example : Clause.prefixed [.mustNot, .must, .mustNot] (.leaf none (.term ['a'])) =
    .must (.leaf none (.term ['a'])) := by decide

end Grammar
end SearchFilter
