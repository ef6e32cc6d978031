/-
# Wildcard patterns as `LIKE` patterns

A raw pattern is a raw word in which a bare `*` stands for any sequence of
characters and a bare `?` for any one. The `LIKE` pattern of the same meaning uses
`%` and `_`, and puts the escape character `\` before each `%`, `_` and `\` that is
meant literally.

| glyph | becomes |
| --- | --- |
| bare `*` | `%` |
| bare `?` | `_` |
| any other character, bare or escaped | itself, escaped where `LIKE` needs it |
| a backslash at the end | nothing |
-/

import SearchFilter.Text.Escape

namespace SearchFilter
namespace Pattern

open Text (Glyph glyphs)

/-- Whether a raw pattern has a bare `*` or `?`. -/
def hasWildcard (s : List Char) : Bool := Text.hasBare '*' s || Text.hasBare '?' s

/-- A character that `LIKE` takes literally. -/
def likeChar (c : Char) : List Char :=
  if c = '%' ∨ c = '_' ∨ c = '\\' then ['\\', c] else [c]

/-- One glyph of a raw pattern inside a `LIKE` pattern. -/
def likeGlyph : Glyph → List Char
  | .bare c => if c = '*' then ['%'] else if c = '?' then ['_'] else likeChar c
  | .escaped c => likeChar c
  | .cut => []

/-- The `LIKE` pattern of a raw pattern. -/
def like (s : List Char) : List Char := (glyphs s).flatMap likeGlyph

/-- The `LIKE` pattern of a raw pattern. -/
def toLike (raw : String) : String := String.ofList (like raw.toList)

/-- The `LIKE` pattern of an empty pattern is empty. -/
@[simp] theorem like_nil : like [] = [] := by simp [like]

/-- An escaped character is meant literally. -/
theorem like_escaped (c : Char) (r : List Char) :
    like ('\\' :: c :: r) = likeChar c ++ like r := by simp [like, likeGlyph]

end Pattern
end SearchFilter
