/-
# Dates and times in a TOML text

| form | example |
| --- | --- |
| date | `1979-05-27` |
| time | `07:32`, `07:32:00`, `07:32:00.999` |
| both | `1979-05-27T07:32:00`, with a blank or `t` in the middle as well |
| both, with a zone | `1979-05-27T07:32:00Z`, `1979-05-27T07:32:00-07:00` |

Only days that the calendar has are dates. A minute may have a second numbered 60.
-/

import SearchFilter.Number.Decimal

namespace SearchFilter
namespace Toml

/-- A number of so many digits between two bounds, and the text behind it. -/
def amount? (digits least most : Nat) (s : List Char) : Option (Nat × List Char) :=
  let ds := s.take digits
  let n := Decimal.natOf ds
  if ds.length = digits ∧ ds.all Char.isDigit ∧ least ≤ n ∧ n ≤ most then some (n, s.drop digits)
  else none

/-- The text behind one character. -/
def behind? (c : Char) : List Char → Option (List Char)
  | [] => none
  | d :: r => if d = c then some r else none

/-- The days of a month. -/
def daysOf (year month : Nat) : Nat :=
  if month = 2 then
    if year % 4 = 0 ∧ (year % 100 ≠ 0 ∨ year % 400 = 0) then 29 else 28
  else if month ∈ [4, 6, 9, 11] then 30
  else 31

/-- The text behind a date. -/
def behindDate? (s : List Char) : Option (List Char) := do
  let (year, r) ← amount? 4 0 9999 s
  let (month, r) ← amount? 2 1 12 (← behind? '-' r)
  let (_, r) ← amount? 2 1 (daysOf year month) (← behind? '-' r)
  some r

/-- The text behind hours and minutes. -/
def behindMinutes? (s : List Char) : Option (List Char) := do
  let (_, r) ← amount? 2 0 23 s
  let (_, r) ← amount? 2 0 59 (← behind? ':' r)
  some r

/-- The text behind a time. -/
def behindTime? (s : List Char) : Option (List Char) := do
  match ← behindMinutes? s with
  | ':' :: r =>
    match ← amount? 2 0 60 r with
    | (_, '.' :: r) => if r.head?.any Char.isDigit then some (r.dropWhile Char.isDigit) else none
    | (_, r) => some r
  | r => some r

/-- Whether a text is a zone or nothing. -/
def isZone : List Char → Bool
  | [] => true
  | ['Z'] => true
  | ['z'] => true
  | '+' :: r => behindMinutes? r == some []
  | '-' :: r => behindMinutes? r == some []
  | _ => false

/-- Whether a text is a date. -/
def isDate (s : List Char) : Bool := behindDate? s == some []

/-- Whether a text is a date, a time, or both. -/
def isMoment (s : List Char) : Bool :=
  match behindDate? s with
  | some [] => true
  | some (c :: r) => (c == 'T' || c == 't' || c == ' ') && (behindTime? r).any isZone
  | none => behindTime? s == some []

/-- The year 2000 has the day that 1900 has not. -/
example : isMoment "2000-02-29 07:32:00Z".toList = true ∧ isDate "1900-02-29".toList = false := by
  decide +kernel

end Toml
end SearchFilter
