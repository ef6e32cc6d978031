/-
# Double-precision numbers

A double is a signed `mantissa * 2 ^ exponent`, an infinity, or not a number. The
finite ones that rounding produces have

* a mantissa below `2 ^ 53`,
* an exponent between `-1074` and `971`, and
* a mantissa of at least `2 ^ 52` unless the exponent is `-1074`,

so that each value has one form; the two zeros differ in sign. All operations
here are exact arithmetic on natural numbers, and rounding happens once, to the
nearest double with ties to the even mantissa.
-/

namespace SearchFilter

/-- A double-precision number. -/
inductive Double where
  | finite (negative : Bool) (mantissa : Nat) (exponent : Int)
  | infinite (negative : Bool)
  | nan
deriving DecidableEq, Repr

namespace Double

/-- The integer nearest to `num / den`; of two equally near the even one. -/
def roundDiv (num den : Nat) : Nat :=
  let q := num / den
  let r := num % den
  if 2 * r < den then q
  else if den < 2 * r then q + 1
  else if q % 2 = 0 then q else q + 1

/-- `num / (den * 2 ^ e)` as a pair of natural numbers. -/
def scaled (num den : Nat) (e : Int) : Nat × Nat :=
  (num * Nat.pow 2 (-e).toNat, den * Nat.pow 2 e.toNat)

/-- The exponent that leaves 53 binary digits of `num / den` before the point, or
the least exponent where that would be below it. -/
def exponentOf (num den : Nat) : Int :=
  let e : Int := (num.log2 : Int) - den.log2 - 53
  let (n, d) := scaled num den e
  max (-1074) (if n / d < Nat.pow 2 53 then e else e + 1)

/-- The double nearest to `num / den`, ties to the even mantissa; too large a
quotient gives an infinity. -/
def ofRatio (negative : Bool) (num den : Nat) : Double :=
  if num = 0 then .finite negative 0 (-1074)
  else
    let e := exponentOf num den
    let (n, d) := scaled num den e
    let m := roundDiv n d
    let (m, e) := if m = Nat.pow 2 53 then (Nat.pow 2 52, e + 1) else (m, e)
    if 971 < e then .infinite negative else .finite negative m e

/-- The double nearest to an integer. -/
def ofInt (i : Int) : Double := ofRatio (decide (i < 0)) i.natAbs 1

/-- Whether a double is neither an infinity nor not a number. -/
def isFinite : Double → Bool
  | .finite .. => true
  | _ => false

/-- The magnitude of a finite double as a fraction of natural numbers. -/
def ratio (mantissa : Nat) (exponent : Int) : Nat × Nat :=
  (mantissa * Nat.pow 2 exponent.toNat, Nat.pow 2 (-exponent).toNat)

/-- The value of a finite double without a fraction. -/
def toInt? : Double → Option Int
  | .finite negative m e =>
    let (n, d) := ratio m e
    if n % d = 0 then some (if negative then -(n / d : Nat) else (n / d : Nat)) else none
  | _ => none

/-- The value of a double that is an integer of magnitude below `2 ^ 63`: the
numbers written without point and exponent. -/
def toInt63? (x : Double) : Option Int :=
  x.toInt?.filter fun i => i.natAbs < Nat.pow 2 63

/-- **Rounding errs by at most half a unit.** -/
theorem roundDiv_near {num den : Nat} (h : 0 < den) :
    2 * (roundDiv num den * den) ≤ 2 * num + den ∧ 2 * num ≤ 2 * (roundDiv num den * den) + den := by
  have e : den * (num / den) + num % den = num := Nat.div_add_mod num den
  have l : num % den < den := Nat.mod_lt _ h
  simp only [roundDiv]
  generalize num / den = q at *
  generalize num % den = r at *
  have hq : (q + 1) * den = den * q + den := by rw [Nat.add_mul, Nat.mul_comm]; simp
  have hq0 : q * den = den * q := Nat.mul_comm ..
  split
  · omega
  · split
    · omega
    · split <;> omega

/-- An exact quotient is not changed by rounding. -/
theorem roundDiv_of_dvd {num den : Nat} (h : 0 < den) (hd : num % den = 0) :
    roundDiv num den = num / den := by
  simp [roundDiv, hd, h]

/-- A mantissa and an exponent make a finite number. -/
@[simp] theorem isFinite_finite (b : Bool) (m : Nat) (e : Int) :
    (Double.finite b m e).isFinite = true := rfl

end Double
end SearchFilter
