/-
# Values without marks in a TOML text

| value | rule |
| --- | --- |
| boolean | `true` or `false` |
| integer | base ten with a sign, or base 16, 8 or 2 behind `0x`, `0o` or `0b` |
| float | digits with a fraction, an exponent or both; infinite only as `inf` |
| date or time | kept as a table with the one member `datetime` |

A single `_` may stand between two digits. Integers reach from `-2 ^ 127` up to and
without `2 ^ 128`.
-/

import SearchFilter.Json.Reader
import SearchFilter.Toml.Moment
import SearchFilter.Toml.Text

namespace SearchFilter
namespace Toml

/-- Digits in which a single `_` may stand between two of them. -/
def digits? (isDigit : Char → Bool) (s : List Char) : Option (List Char) :=
  let ok := s.head?.any isDigit && s.getLast?.any isDigit &&
    s.all (fun c => isDigit c || c == '_') &&
    (s.zip s.tail).all fun p => !(p.1 == '_' && p.2 == '_')
  if ok then some (s.filter (· != '_')) else none

/-- The integer that digits of a base write. -/
def inBase (base : Nat) (ds : List Char) : Int :=
  ds.foldl (fun n c => base * n + (((Json.hexValue? c).getD 0 : Nat) : Int)) 0

/-- An integer, in base ten with a sign or in another base behind `0x`, `0o` or `0b`. -/
def integer? (s : List Char) : Option Int :=
  match s with
  | '0' :: 'x' :: ds => (digits? (fun c => (Json.hexValue? c).isSome) ds).map (inBase 16)
  | '0' :: 'o' :: ds => (digits? (fun c => '0' ≤ c && c ≤ '7') ds).map (inBase 8)
  | '0' :: 'b' :: ds => (digits? (fun c => c == '0' || c == '1') ds).map (inBase 2)
  | s => do
    let (negative, ds) := Decimal.splitSign s
    let ds ← digits? Char.isDigit ds
    if ds.length = 1 || ds.head? != some '0' then
      some (if negative then -inBase 10 ds else inBase 10 ds)
    else none

/-- Digits with a fraction, an exponent or both, behind a sign. -/
def decimal? (negative : Bool) (body : List Char) : Option Double := do
  let isPart (c : Char) : Bool := c.isDigit || c == '_'
  let whole ← digits? Char.isDigit (body.takeWhile isPart)
  if whole.length ≠ 1 ∧ whole.head? = some '0' then none
  else
    let rest := body.dropWhile isPart
    let (places, rest) ← match rest with
      | '.' :: r => (digits? Char.isDigit (r.takeWhile isPart)).map fun p =>
          ('.' :: p, r.dropWhile isPart)
      | r => some ([], r)
    let exponent ← match rest with
      | [] => if places.isEmpty then none else some []
      | e :: r =>
        if e = 'e' ∨ e = 'E' then
          let (down, r) := Decimal.splitSign r
          (digits? Char.isDigit r).map fun ds => 'e' :: (if down then '-' :: ds else ds)
        else none
    Decimal.read? ((if negative then ['-'] else []) ++ whole ++ places ++ exponent)

/-- A float: digits, or one of the words `inf` and `nan`. Digits that write too large
a number are refused. -/
def float? (s : List Char) : Option Double :=
  let (negative, body) := Decimal.splitSign s
  if body = ['i', 'n', 'f'] then some (.infinite negative)
  else if body = ['n', 'a', 'n'] then some .nan
  else (decimal? negative body).filter Double.isFinite

/-- A value without brackets and marks. -/
def scalar? (s : List Char) : Option Json :=
  if s = ['t', 'r', 'u', 'e'] then some (.bool true)
  else if s = ['f', 'a', 'l', 's', 'e'] then some (.bool false)
  else if isMoment s then some (.object [("datetime", .string (String.ofList s))])
  else
    match integer? s with
    | some i => if -Int.pow 2 127 ≤ i ∧ i < Int.pow 2 128 then some (.number (.integer i)) else none
    | none => (float? s).map fun x => .number (.real x)

/-- A character that ends a value without brackets and marks. -/
def endsScalar (c : Char) : Bool :=
  isGap c || c == '\n' || c == '\r' || c == ',' || c == ']' || c == '\x7d' || c == '#'

/-- Splits off a value without brackets and marks. A blank ends it, unless it stands
between a date and a digit. -/
def spanScalar (s : List Char) : List Char × List Char :=
  let first := s.takeWhile fun c => !endsScalar c
  match s.dropWhile fun c => !endsScalar c with
  | ' ' :: r =>
    if isDate first && r.head?.any Char.isDigit then
      (first ++ ' ' :: r.takeWhile fun c => !endsScalar c, r.dropWhile fun c => !endsScalar c)
    else (first, ' ' :: r)
  | r => (first, r)

end Toml
end SearchFilter
