/-
# The fewest digits that identify a double

The reals that round to a double form an interval; its ends belong to it exactly
when the mantissa is even, and its lower half is narrower just above a power of
two. Among the decimals of this interval the *shortest* one is taken:

1. for one digit, two digits, and so on, look at the two decimals of that many
   digits next to the value;
2. the first length at which one of them lies in the interval wins;
3. of two, the nearer one is taken, and on an exact tie the rule of the notation
   decides.

Seventeen digits always suffice; should none be found the exact value is
returned, never a guess.
-/

import SearchFilter.Number.Double

namespace SearchFilter
namespace Decimal

/-- A positive decimal, `digits * 10 ^ scale`. -/
structure Digits where
  digits : Nat
  scale : Int
deriving DecidableEq, Repr

/-- Which of two equally near decimals is taken. -/
inductive Tie where
  | toEven
  | up
deriving DecidableEq, Repr

/-- A positive double with its rounding interval, scaled to natural numbers: the
value is `value / unit`, the ends are `low / unit` and `high / unit`. -/
structure Interval where
  low : Nat
  value : Nat
  high : Nat
  unit : Nat
  closed : Bool

/-- The rounding interval of `mantissa * 2 ^ exponent`. -/
def Interval.of (mantissa : Nat) (exponent : Int) : Interval :=
  let narrow := mantissa = Nat.pow 2 52 ∧ -1074 < exponent
  let up := Nat.pow 2 (exponent - 2).toNat
  { low := (4 * mantissa - if narrow then 1 else 2) * up
    value := 4 * mantissa * up
    high := (4 * mantissa + 2) * up
    unit := Nat.pow 2 (2 - exponent).toNat
    closed := mantissa % 2 = 0 }

/-- The interval in units of `10 ^ scale`. -/
def Interval.per (x : Interval) (scale : Int) : Interval :=
  let up := Nat.pow 10 (-scale).toNat
  { x with
    low := x.low * up
    value := x.value * up
    high := x.high * up
    unit := x.unit * Nat.pow 10 scale.toNat }

/-- Whether the integer `d` lies in the interval. -/
def Interval.holds (x : Interval) (d : Nat) : Bool :=
  let p := d * x.unit
  if x.closed then x.low ≤ p && p ≤ x.high else x.low < p && p < x.high

/-- The integer next to the value that lies in the interval, the nearer of two. -/
def Interval.neighbour? (tie : Tie) (x : Interval) : Option Nat :=
  let d := x.value / x.unit
  match x.holds d, x.holds (d + 1) with
  | false, false => none
  | true, false => some d
  | false, true => some (d + 1)
  | true, true =>
    let middle := (2 * d + 1) * x.unit
    if 2 * x.value < middle then some d
    else if middle < 2 * x.value then some (d + 1)
    else match tie with
      | .up => some (d + 1)
      | .toEven => some (if d % 2 = 0 then d else d + 1)

/-- The exponent of the leading decimal digit of `value / unit`: an estimate from
the binary logarithm, mended by one step where it is off. -/
def Interval.lead (x : Interval) : Int :=
  let guess : Int := (((x.value.log2 : Int) - x.unit.log2) * 30103) / 100000
  let reaches (k : Int) : Bool := let y := x.per k; decide (y.unit ≤ y.value)
  if !reaches guess then (if reaches (guess - 1) then guess - 1 else guess - 2)
  else if reaches (guess + 1) then guess + 1 else guess

/-- Moves trailing zeros of the digits into the scale. -/
def Digits.strip (d : Digits) : Digits :=
  if d.digits % 10 = 0 ∧ d.digits ≠ 0 then strip ⟨d.digits / 10, d.scale + 1⟩ else d
termination_by d.digits
decreasing_by exact Nat.div_lt_self (by omega) (by omega)

/-- The fewest digits that identify the positive double `mantissa * 2 ^ exponent`. -/
def shortest (tie : Tie) (mantissa : Nat) (exponent : Int) : Digits :=
  let x := Interval.of mantissa exponent
  let lead := x.lead
  let found := (List.range 17).findSome? fun (n : Nat) =>
    (Interval.neighbour? tie (x.per (lead - (n : Int)))).map fun d =>
      (⟨d, lead - (n : Int)⟩ : Digits)
  match found with
  | some d => d.strip
  | none =>
    let (n, _) := Double.ratio mantissa exponent
    ⟨n * Nat.pow 5 (-exponent).toNat, min exponent 0⟩

/-- One tenth and the least positive double. -/
example : shortest .toEven 7205759403792794 (-56) = ⟨1, -1⟩ ∧
    shortest .up 1 (-1074) = ⟨5, -324⟩ := by
  decide +kernel

/-- On an exact tie the two rules part. -/
example : shortest .toEven (Nat.pow 2 52) (-77) = ⟨29802322387695312, -24⟩ ∧
    shortest .up (Nat.pow 2 52) (-77) = ⟨29802322387695313, -24⟩ := by decide +kernel

end Decimal
end SearchFilter
