/-
# Reading JSON

A reader takes one value from the front of a text and leaves the rest; blanks are
space, tab, line feed and carriage return. Numbers follow the JSON grammar: no
leading zero before another digit, digits on both sides of a point, digits in an
exponent. A string may hold any character but a quote, a backslash and the
controls below U+0020 unescaped, and surrogate escapes must come in pairs.
-/

import SearchFilter.Json.Basic
import SearchFilter.Number.Decimal

namespace SearchFilter
namespace Json

/-- The blanks of JSON. -/
def isSpace (c : Char) : Bool := c == ' ' || c == '\t' || c == '\n' || c == '\r'

/-- The text from its first character that is not a blank. -/
def skipSpace (s : List Char) : List Char := s.dropWhile isSpace

/-- The value of a digit of base sixteen. -/
def hexValue? (c : Char) : Option Nat :=
  if c.isDigit then some (c.toNat - '0'.toNat)
  else if 'a' ≤ c ∧ c ≤ 'f' then some (c.toNat - 'a'.toNat + 10)
  else if 'A' ≤ c ∧ c ≤ 'F' then some (c.toNat - 'A'.toNat + 10)
  else none

/-- The number that four digits of base sixteen write. -/
def hex4? : List Char → Option (Nat × List Char)
  | a :: b :: c :: d :: r => do
    let a ← hexValue? a
    let b ← hexValue? b
    let c ← hexValue? c
    let d ← hexValue? d
    some (((a * 16 + b) * 16 + c) * 16 + d, r)
  | _ => none

/-- The character after `\u`, joining a pair of surrogates. -/
def unicode? (s : List Char) : Option (Char × List Char) := do
  let (n, r) ← hex4? s
  if 0xD800 ≤ n ∧ n < 0xDC00 then
    match r with
    | '\\' :: 'u' :: r =>
      let (low, r) ← hex4? r
      if 0xDC00 ≤ low ∧ low < 0xE000 then
        some (Char.ofNat (0x10000 + (n - 0xD800) * 0x400 + (low - 0xDC00)), r)
      else none
    | _ => none
  else if 0xDC00 ≤ n ∧ n < 0xE000 then none
  else some (Char.ofNat n, r)

/-- The character that an escape letter stands for. -/
def letter? : Char → Option Char
  | '"' => some '"'
  | '\\' => some '\\'
  | '/' => some '/'
  | 'b' => some (Char.ofNat 8)
  | 'f' => some (Char.ofNat 12)
  | 'n' => some '\n'
  | 'r' => some '\r'
  | 't' => some '\t'
  | _ => none

/-- The characters of a string up to its closing quote, gathered in reverse. The
number bounds the characters that are still read. -/
def stringFrom? : Nat → List Char → List Char → Option (List Char × List Char)
  | 0, _, _ => none
  | bound + 1, done, s =>
    match s with
    | [] => none
    | '"' :: r => some (done.reverse, r)
    | '\\' :: 'u' :: r =>
      match unicode? r with
      | some (c, r) => stringFrom? bound (c :: done) r
      | none => none
    | '\\' :: c :: r =>
      match letter? c with
      | some d => stringFrom? bound (d :: done) r
      | none => none
    | c :: r => if c.toNat < 32 ∨ c = '\\' then none else stringFrom? bound (c :: done) r

/-- A string after its opening quote. -/
def string? (s : List Char) : Option (String × List Char) :=
  (stringFrom? (s.length + 1) [] s).map fun (t, r) => (String.ofList t, r)

/-- The characters that a number is made of. -/
def isNumberPart (c : Char) : Bool :=
  c.isDigit || c == '-' || c == '+' || c == '.' || c == 'e' || c == 'E'

/-- Whether a text is a JSON number: what a decimal numeral may be, less a plus
sign, a leading zero and a point without digits on both sides. -/
def isNumber (s : List Char) : Bool :=
  let t := match s with
    | '-' :: r => r
    | s => s
  let (whole, t) := Decimal.spanDigits t
  let fraction := match t with
    | '.' :: r => !(Decimal.spanDigits r).1.isEmpty
    | _ => true
  !whole.isEmpty && (whole.length = 1 || whole.head? != some '0') && fraction &&
    (Decimal.numeral? s).isSome

/-- The number that a text writes. -/
def number? (s : List Char) : Option Number :=
  if isNumber s then do
    let n ← Decimal.numeral? s
    let value : Int :=
      if n.negative then -(Decimal.natOf n.digits : Int) else Decimal.natOf n.digits
    let whole := s.all fun c => c.isDigit || c == '-'
    if whole ∧ -Int.pow 2 63 ≤ value ∧ value < Int.pow 2 64 ∧ ¬(value = 0 ∧ n.negative) then
      some (.integer value)
    else some (.real n.toDouble)
  else none

mutual
/-- One value; the number bounds the steps. -/
def readValue : Nat → List Char → Option (Json × List Char)
  | 0, _ => none
  | bound + 1, s =>
    match skipSpace s with
    | 'n' :: 'u' :: 'l' :: 'l' :: r => some (.null, r)
    | 't' :: 'r' :: 'u' :: 'e' :: r => some (.bool true, r)
    | 'f' :: 'a' :: 'l' :: 's' :: 'e' :: r => some (.bool false, r)
    | '"' :: r => (string? r).map fun (t, r) => (.string t, r)
    | '[' :: r =>
      match skipSpace r with
      | ']' :: r => some (.array [], r)
      | r => (readItems bound r).map fun (vs, r) => (.array vs, r)
    | '\x7b' :: r =>
      match skipSpace r with
      | '\x7d' :: r => some (.object [], r)
      | r => (readMembers bound r).map fun (ms, r) => (.object ms, r)
    | s => do
      let n ← number? (s.takeWhile isNumberPart)
      some (.number n, s.dropWhile isNumberPart)

/-- One or more elements up to the closing bracket. -/
def readItems : Nat → List Char → Option (List Json × List Char)
  | 0, _ => none
  | bound + 1, s => do
    let (v, r) ← readValue bound s
    match skipSpace r with
    | ',' :: r =>
      let (vs, r) ← readItems bound r
      some (v :: vs, r)
    | ']' :: r => some ([v], r)
    | _ => none

/-- One or more members up to the closing brace. -/
def readMembers : Nat → List Char → Option (List (String × Json) × List Char)
  | 0, _ => none
  | bound + 1, s => do
    let (k, r) ← match skipSpace s with
      | '"' :: r => string? r
      | _ => none
    let r ← match skipSpace r with
      | ':' :: r => some r
      | _ => none
    let (v, r) ← readValue bound r
    match skipSpace r with
    | ',' :: r =>
      let (ms, r) ← readMembers bound r
      some ((k, v) :: ms, r)
    | '\x7d' :: r => some ([(k, v)], r)
    | _ => none
end

/-- Reads a text that holds one value and blanks around it. -/
def parse? (s : String) : Option Json := do
  let cs := s.toList
  let (v, r) ← readValue (2 * cs.length + 2) cs
  if (skipSpace r).isEmpty then some v else none

end Json
end SearchFilter
