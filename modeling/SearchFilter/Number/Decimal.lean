/-
# Decimal numerals

The numerals that a comparison takes for numbers:

    numeral  := sign? (digits "."? digits? | "." digits) exponent?
    sign     := "+" | "-"
    exponent := ("e" | "E") sign? digits

At least one digit stands before or after the point. A numeral is read as the
double nearest to it. Words such as `inf` or `nan` are no numerals: what they
name is not finite, and only finite numbers are compared as numbers.
-/

import SearchFilter.Number.Double

namespace SearchFilter
namespace Decimal

/-- A written number: `± digits * 10 ^ scale`. -/
structure Numeral where
  negative : Bool
  digits : List Char
  scale : Int
deriving DecidableEq, Repr

/-- The value of one decimal digit. -/
def digitValue (c : Char) : Nat := c.toNat - '0'.toNat

/-- The number that a list of digits writes. -/
def natOf (ds : List Char) : Nat := ds.foldl (fun n c => 10 * n + digitValue c) 0

/-- The leading run of digits and what follows it. -/
def spanDigits (s : List Char) : List Char × List Char :=
  (s.takeWhile Char.isDigit, s.dropWhile Char.isDigit)

/-- Splits off a sign; `true` stands for minus. -/
def splitSign : List Char → Bool × List Char
  | '+' :: r => (false, r)
  | '-' :: r => (true, r)
  | s => (false, s)

/-- An exponent part up to the end of the text; an empty text is the exponent 0. -/
def exponent? : List Char → Option Int
  | [] => some 0
  | c :: r =>
    if c = 'e' ∨ c = 'E' then
      let (negative, ds) := splitSign r
      if !ds.isEmpty && ds.all Char.isDigit then
        some (if negative then -(natOf ds : Int) else natOf ds)
      else none
    else none

/-- Reads a whole text as a numeral. -/
def numeral? (s : List Char) : Option Numeral :=
  let (negative, s) := splitSign s
  let (whole, s) := spanDigits s
  let (fraction, s) := match s with
    | '.' :: r => spanDigits r
    | s => ([], s)
  if whole.isEmpty && fraction.isEmpty then none
  else (exponent? s).map fun e => ⟨negative, whole ++ fraction, e - fraction.length⟩

/-- The double nearest to a numeral. Digits far beyond the range of a double are
settled by the place of the first one, without computing the power of ten. -/
def Numeral.toDouble (n : Numeral) : Double :=
  let significant := n.digits.dropWhile (· == '0')
  let lead : Int := significant.length + n.scale
  if significant.isEmpty || lead < -400 then .finite n.negative 0 (-1074)
  else if 400 < lead then .infinite n.negative
  else .ofRatio n.negative (natOf significant * Nat.pow 10 n.scale.toNat)
    (Nat.pow 10 (-n.scale).toNat)

/-- The double that a text writes as a numeral. -/
def read? (s : List Char) : Option Double := (numeral? s).map Numeral.toDouble

/-- The double that a text writes, where that double is finite. -/
def finite? (s : List Char) : Option Double := (read? s).filter Double.isFinite

/-- The digits that write a natural number. -/
def ofNat (n : Nat) : List Char := Nat.toDigits 10 n

/-- The digits that write an integer, with a minus sign below zero. -/
def ofInt (i : Int) : List Char := if i < 0 then '-' :: ofNat i.natAbs else ofNat i.natAbs

/-- A run of characters ends at the first one of another kind. -/
theorem span_append {p : Char → Bool} {s r : List Char} (hs : ∀ c ∈ s, p c = true)
    (hr : ∀ c ∈ r.head?, p c = false) : (s ++ r).takeWhile p = s ∧ (s ++ r).dropWhile p = r := by
  rw [List.takeWhile_append_of_pos hs, List.dropWhile_append_of_pos hs]
  cases r with
  | nil => simp
  | cons c r => simp [hr c rfl]

/-- Digits are cut off up to the first character that is none. -/
theorem spanDigits_append {ds r : List Char} (hds : ds.all Char.isDigit = true)
    (hr : ∀ c ∈ r.head?, c.isDigit = false) : spanDigits (ds ++ r) = (ds, r) := by
  obtain ⟨htake, hdrop⟩ := span_append (List.all_eq_true.1 hds) hr
  rw [spanDigits, htake, hdrop]

/-- The digits of a natural number are digits. -/
theorem isDigit_ofNat (n : Nat) : (ofNat n).all Char.isDigit = true :=
  List.all_eq_true.2 fun _ hc => Nat.isDigit_of_mem_toDigits (by decide) (by decide) hc

/-- They write this number. -/
theorem natOf_ofNat (n : Nat) : natOf (ofNat n) = n := Nat.ofDigitChars_ten_toDigits

/-- What is read as a finite number is one. -/
theorem isFinite_of_finite? {s : List Char} {x : Double} (h : finite? s = some x) :
    x.isFinite = true := by
  simp only [finite?, Option.filter_eq_some_iff] at h
  exact h.2

/-- A point may stand before or after the digits, and not alone. -/
example : (numeral? ['5', '.']).isSome = true ∧ (numeral? ['.', '5']).isSome = true ∧
    numeral? ['.'] = none ∧ numeral? [] = none ∧ numeral? ['1', 'e'] = none := by decide

end Decimal
end SearchFilter
