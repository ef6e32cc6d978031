/-
# Patterns without a general wildcard

Where a target has no `LIKE`, a raw pattern can be expressed only if its bare
stars stand at its two ends:

| stars | shape |
| --- | --- |
| in front, or on both sides | the text contains the core |
| behind only | the text begins with the core |
| none | the text is the core |
| and the core is empty | any text |

A bare `?`, or a bare star inside the core, has no shape. The stars behind are cut off one by one
from the end, as long as an even number of backslashes stands in front of the next one.
-/

import SearchFilter.Text.Escape

namespace SearchFilter
namespace Pattern

/-- What a pattern asks of a text. -/
inductive Shape where
  | contains (text : String)
  | beginsWith (text : String)
  | exact (text : String)
  | any
deriving DecidableEq, Repr

/-- Whether a text ends in an odd run of backslashes, so that the last one escapes the character
behind it. -/
def endsEscaped (s : List Char) : Bool :=
  (s.reverse.takeWhile (· == '\\')).length % 2 == 1

/-- A reversed text without the stars in front that nothing behind them escapes. -/
def cutReversed : List Char → List Char
  | [] => []
  | c :: r => if c = '*' ∧ endsEscaped r.reverse = false then cutReversed r else c :: r

/-- A text without the stars at its end that no backslash escapes. -/
def cutStars (s : List Char) : List Char := (cutReversed s.reverse).reverse

/-- The shape of a raw pattern, where it has one. -/
def shape? (raw : String) : Option Shape :=
  let s := raw.toList
  if Text.hasBare '?' s then none
  else
    let leading := s.head? = some '*'
    let body := s.dropWhile (· == '*')
    let core := cutStars body
    let trailing := core.length < body.length
    if Text.hasBare '*' core then none
    else
      let text := String.ofList (Text.unescape core)
      if text.isEmpty ∧ (leading ∨ trailing) then some .any
      else if leading then some (.contains text)
      else if trailing then some (.beginsWith text)
      else some (.exact text)

end Pattern
end SearchFilter
