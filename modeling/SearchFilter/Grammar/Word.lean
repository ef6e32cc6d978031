/-
# The words of the grammar

| word | text |
| --- | --- |
| term | characters other than blanks and `( ) [ ] { } " ^ ~ : \`, and backslash pairs |
| keyword | a term that is the word in any case, or its symbol |
| phrase | text between quotes, in which a backslash takes the next character as it is |
| field name | an identifier, perhaps with a point and name characters behind it |
| integer | digits that write a number below `2 ^ 32` |
| decimal | digits, perhaps with a point and more digits |

Each of these leaves one note, at the place where it could not go on.
-/

import SearchFilter.Grammar.Reader
import SearchFilter.Number.Decimal
import SearchFilter.Text.Case
import SearchFilter.Text.Identifier

namespace SearchFilter
namespace Grammar

/-- A character that ends a term. -/
def isDelimiter (c : Char) : Bool :=
  ['(', ')', '[', ']', '\x7b', '\x7d', '"', '^', '~', ':', '\\'].contains c

/-- Cuts a term off the front of a text. -/
def spanTerm : List Char → List Char × List Char
  | [] => ([], [])
  | '\\' :: c :: r => let (word, rest) := spanTerm r; ('\\' :: c :: word, rest)
  | c :: r =>
    if Text.isBlank c || isDelimiter c then ([], c :: r)
    else let (word, rest) := spanTerm r; (c :: word, rest)

/-- A note that the text at a place was not expected. -/
def stopped (rest : List Char) : List Note := [⟨rest, .unexpected, false⟩]

/-- A term with its backslashes. A backslash at the end of the text fails behind
itself. -/
def term : Reader (List Char) := fun s =>
  let (word, rest) := spanTerm s
  let notes := stopped (if rest = ['\\'] then [] else rest)
  if word.isEmpty then ⟨none, notes⟩ else ⟨some (word, rest), notes⟩

/-- A term that is a word in any case of its letters, or a symbol. -/
def keyword (word symbol : String) : Reader Unit :=
  .labelled (.accept term fun t =>
    if Text.sameWord t word.toList || t == symbol.toList then some () else none)

/-- Whether a term is an operator and no word to search for. -/
def isReserved (t : List Char) : Bool :=
  Text.sameWord t ['A', 'N', 'D'] || Text.sameWord t ['O', 'R'] ||
    Text.sameWord t ['N', 'O', 'T'] || t == ['&', '&'] || t == ['|', '|']

/-- A term that is no operator. -/
def bareTerm : Reader (List Char) :=
  .accept term fun t => if isReserved t then none else some t

/-- The inside of a phrase up to its closing quote, and the text from there on. -/
def spanQuoted : List Char → List Char × List Char
  | [] => ([], [])
  | '\\' :: c :: r => let (inside, rest) := spanQuoted r; (c :: inside, rest)
  | c :: r =>
    if c = '"' ∨ c = '\\' then ([], c :: r)
    else let (inside, rest) := spanQuoted r; (c :: inside, rest)

/-- A phrase without its quotes and backslashes. -/
def phrase : Reader (List Char) := fun s =>
  match s with
  | '"' :: r =>
    match spanQuoted r with
    | (inside, '"' :: rest) => ⟨some (inside, rest), stopped ('"' :: rest)⟩
    | _ => ⟨none, stopped []⟩
  | s => ⟨none, stopped s⟩

/-- A field name, with a part behind a point where one is given. -/
def fieldName : Reader (List Char) := fun s =>
  match s with
  | [] => ⟨none, stopped []⟩
  | c :: r =>
    if Text.isNameStart c then
      let name := c :: r.takeWhile Text.isNamePart
      match r.dropWhile Text.isNamePart with
      | '.' :: rest =>
        let part := rest.takeWhile Text.isNamePart
        let after := rest.dropWhile Text.isNamePart
        if part.isEmpty then ⟨some (name, '.' :: rest), stopped rest⟩
        else ⟨some (name ++ '.' :: part, after), stopped after⟩
      | rest => ⟨some (name, rest), stopped rest⟩
    else ⟨none, stopped (c :: r)⟩

/-- An integer of 32 bits. -/
def integer : Reader Nat := fun s =>
  let (ds, rest) := Decimal.spanDigits s
  if ds.isEmpty then ⟨none, stopped s⟩
  else if Decimal.natOf ds < Nat.pow 2 32 then ⟨some (Decimal.natOf ds, rest), stopped rest⟩
  else ⟨none, [⟨s, .unexplained, false⟩]⟩

/-- A number without sign and exponent. -/
def decimal : Reader Double := fun s =>
  let (ds, rest) := Decimal.spanDigits s
  if ds.isEmpty then ⟨none, stopped s⟩
  else
    let read (text : List Char) : Double := (Decimal.read? text).getD .nan
    match rest with
    | '.' :: more =>
      let (places, after) := Decimal.spanDigits more
      if places.isEmpty then ⟨some (read ds, rest), stopped more⟩
      else ⟨some (read (ds ++ '.' :: places), after), stopped after⟩
    | rest => ⟨some (read ds, rest), stopped rest⟩

/-- A character of a class that no delimiter is in. -/
theorem isDelimiter_eq_false_of {P : Char → Bool}
    (hP : ['(', ')', '[', ']', '\x7b', '\x7d', '"', '^', '~', ':', '\\'].all (fun c => !P c) = true)
    {c : Char} (h : P c = true) : isDelimiter c = false := by
  refine Bool.eq_false_iff.2 fun hd => ?_
  rw [isDelimiter, List.contains_iff_mem] at hd
  have hnot := List.all_eq_true.1 hP c hd
  rw [h] at hnot
  cases hnot

end Grammar
end SearchFilter
