/-
# Strings in TOML

A string takes the first of these forms that can hold it without an escape other than
the one for a tab:

| form | holds |
| --- | --- |
| `"…"` | one line, without `"` and backslashes |
| `'…'` | one line, without `'` |
| `"""…"""` | several lines, without backslashes and three `"` in a row |
| `'''…'''` | several lines, without three `'` in a row |

Otherwise it is written with escapes, between `"""` if it has several lines and
between `"` if not. A form for several lines breaks the line behind its opening marks
if the string has several lines.
-/

import SearchFilter.Toml.Text

namespace SearchFilter
namespace Toml

/-- A digit of base sixteen, in upper case. -/
def upperDigit (n : Nat) : Char := (Nat.digitChar (n % 16)).toUpper

/-- How one character is written between `"`. -/
def escape (c : Char) : List Char :=
  if c = '"' then ['\\', '"']
  else if c = '\\' then ['\\', '\\']
  else if c = '\n' then ['\\', 'n']
  else if c = '\r' then ['\\', 'r']
  else if c = '\t' then ['\\', 't']
  else if c.toNat = 8 then ['\\', 'b']
  else if c.toNat = 12 then ['\\', 'f']
  else if isControl c then ['\\', 'u', '0', '0', upperDigit (c.toNat / 16), upperDigit c.toNat]
  else [c]

/-- How characters are written between `"""`, behind some `"` in a row: ends of lines
stand as they are, and so do two `"` of three. -/
def escapeLines (quotes : Nat) : List Char → List Char
  | [] => []
  | '\n' :: r => '\n' :: escapeLines 0 r
  | '"' :: r =>
    if quotes < 2 then '"' :: escapeLines (quotes + 1) r else '\\' :: '"' :: escapeLines 0 r
  | c :: r => escape c ++ escapeLines 0 r

/-- Whether a character comes three times in a row. -/
def isTripled (c : Char) : List Char → Bool
  | [] => false
  | a :: r => [c, c, c].isPrefixOf (a :: r) || isTripled c r

/-- A text between three marks on either side. -/
def enclosed (mark : Char) (breaks : Bool) (body : List Char) : List Char :=
  let marks := [mark, mark, mark]
  marks ++ (if breaks then ['\n'] else []) ++ body ++ marks

/-- A string as a value. -/
def quote (s : List Char) : List Char :=
  let breaks := s.contains '\n'
  let clean := s.all fun c => !isControl c || c == '\n'
  let short := '"' :: (s.flatMap escape ++ ['"'])
  let long := enclosed '"' breaks (escapeLines 0 s)
  if clean && !breaks && !s.contains '"' && !s.contains '\\' then short
  else if clean && !breaks && !s.contains '\'' then '\'' :: (s ++ ['\''])
  else if clean && !s.contains '\\' && !isTripled '"' s then long
  else if clean && !isTripled '\'' s then enclosed '\'' breaks s
  else if breaks then long
  else short

/-- A plain name stands between `"` as it is. -/
example : quote ['a', '\'', 'b'] = ['"', 'a', '\'', 'b', '"'] ∧
    quote ['"'] = ['\'', '"', '\''] ∧
    quote ['"', '\''] = ['"', '"', '"', '"', '\'', '"', '"', '"'] := by
  decide

end Toml
end SearchFilter
