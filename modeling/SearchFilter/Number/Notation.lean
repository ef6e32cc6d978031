/-
# How a finite double is written

A notation is a record of decisions about layout; the digits themselves are the
shortest ones. The exponent of the leading digit decides between positional form
and exponent form, which has one digit before the point and a signed exponent
without padding.
-/

import SearchFilter.Number.Decimal
import SearchFilter.Number.Shortest

namespace SearchFilter
namespace Decimal

/-- The layout of a finite number. -/
structure Layout where
  /-- exponents of the leading digit written positionally, from the first up to
  and without the second; with `none` all are -/
  plain : Option (Int × Int)
  /-- whether a number without fraction is written with `.0` -/
  pointZero : Bool
  /-- whether minus zero keeps its sign -/
  signedZero : Bool
  tie : Tie

/-- `ds * 10 ^ scale` without an exponent part. -/
def Layout.positional (l : Layout) (ds : List Char) (scale : Int) : List Char :=
  let lead : Int := ds.length + scale
  if 0 ≤ scale then
    ds ++ List.replicate scale.toNat '0' ++ (if l.pointZero then ['.', '0'] else [])
  else if 0 < lead then ds.take lead.toNat ++ '.' :: ds.drop lead.toNat
  else '0' :: '.' :: (List.replicate (-lead).toNat '0' ++ ds)

/-- `ds * 10 ^ scale` with one digit before the point and an exponent part. -/
def scientific (ds : List Char) (scale : Int) : List Char :=
  let lead : Int := ds.length + scale - 1
  let exponent := if lead < 0 then ofInt lead else '+' :: ofInt lead
  ds.take 1 ++ (if ds.length ≤ 1 then [] else '.' :: ds.drop 1) ++ 'e' :: exponent

/-- The text of `mantissa * 2 ^ exponent` with the given sign. -/
def Layout.write (l : Layout) (negative : Bool) (mantissa : Nat) (exponent : Int) : List Char :=
  if mantissa = 0 then
    (if negative && l.signedZero then ['-'] else []) ++ l.positional ['0'] 0
  else
    let d := shortest l.tie mantissa exponent
    let ds := ofNat d.digits
    let lead : Int := ds.length + d.scale - 1
    let isPlain := match l.plain with
      | none => true
      | some (low, high) => decide (low ≤ lead) && decide (lead < high)
    (if negative then ['-'] else []) ++
      if isPlain then l.positional ds d.scale else scientific ds d.scale

end Decimal
end SearchFilter
