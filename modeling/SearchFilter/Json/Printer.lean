/-
# Writing JSON

Two layouts: *compact*, without any space, and *pretty*, with one member or
element to a line, two spaces of indentation and `": "` after a key. Empty
objects and arrays are `{}` and `[]` in both.

In a string the quote, the backslash and the control characters below U+0020 are
escaped, five of them by a letter; every other character stands for itself. A
number that is not finite is written as `null`.
-/

import SearchFilter.Json.Basic
import SearchFilter.Number.Notation

namespace SearchFilter
namespace Json

/-- Numbers are positional for leading exponents from -5 to 15 and always show
that they are no integers. -/
def layout : Decimal.Layout where
  plain := some (-5, 16)
  pointZero := true
  signedZero := true
  tie := .toEven

/-- The text of a number. -/
def Number.write : Number → List Char
  | .integer i => Decimal.ofInt i
  | .real (.finite negative m e) => layout.write negative m e
  | .real _ => ['n', 'u', 'l', 'l']

/-- The digits of a control character's code, four of base sixteen. -/
def hexCode (c : Char) : List Char :=
  [Nat.digitChar (c.toNat / 4096 % 16), Nat.digitChar (c.toNat / 256 % 16),
   Nat.digitChar (c.toNat / 16 % 16), Nat.digitChar (c.toNat % 16)]

/-- How one character is written inside a string. -/
def escape (c : Char) : List Char :=
  if c = '"' then ['\\', '"']
  else if c = '\\' then ['\\', '\\']
  else if c = '\n' then ['\\', 'n']
  else if c = '\r' then ['\\', 'r']
  else if c = '\t' then ['\\', 't']
  else if c.toNat = 8 then ['\\', 'b']
  else if c.toNat = 12 then ['\\', 'f']
  else if c.toNat < 32 then '\\' :: 'u' :: hexCode c
  else [c]

/-- A string between quotes. -/
def quote (s : List Char) : List Char := '"' :: (s.flatMap escape ++ ['"'])

mutual
/-- The compact text of a value. -/
def writeCompact : Json → List Char
  | .null => ['n', 'u', 'l', 'l']
  | .bool true => ['t', 'r', 'u', 'e']
  | .bool false => ['f', 'a', 'l', 's', 'e']
  | .number n => n.write
  | .string s => quote s.toList
  | .array items => '[' :: (writeItems items ++ [']'])
  | .object members => '\x7b' :: (writeMembers members ++ ['\x7d'])

/-- Elements, separated by commas. -/
def writeItems : List Json → List Char
  | [] => []
  | [v] => writeCompact v
  | v :: rest => writeCompact v ++ ',' :: writeItems rest

/-- Members, separated by commas. -/
def writeMembers : List (String × Json) → List Char
  | [] => []
  | [(k, v)] => quote k.toList ++ ':' :: writeCompact v
  | (k, v) :: rest => quote k.toList ++ ':' :: (writeCompact v ++ ',' :: writeMembers rest)
end

/-- A line break and the indentation of a level. -/
def newline (level : Nat) : List Char := '\n' :: List.replicate (2 * level) ' '

mutual
/-- The pretty text of a value that stands at a level of indentation. -/
def writePretty (level : Nat) : Json → List Char
  | .null => ['n', 'u', 'l', 'l']
  | .bool true => ['t', 'r', 'u', 'e']
  | .bool false => ['f', 'a', 'l', 's', 'e']
  | .number n => n.write
  | .string s => quote s.toList
  | .array [] => ['[', ']']
  | .array (v :: rest) => '[' :: (prettyItems (level + 1) (v :: rest) ++ newline level ++ [']'])
  | .object [] => ['\x7b', '\x7d']
  | .object (m :: rest) =>
    '\x7b' :: (prettyMembers (level + 1) (m :: rest) ++ newline level ++ ['\x7d'])

/-- Elements, one to a line. -/
def prettyItems (level : Nat) : List Json → List Char
  | [] => []
  | [v] => newline level ++ writePretty level v
  | v :: rest => newline level ++ writePretty level v ++ ',' :: prettyItems level rest

/-- Members, one to a line. -/
def prettyMembers (level : Nat) : List (String × Json) → List Char
  | [] => []
  | [(k, v)] => newline level ++ quote k.toList ++ ':' :: ' ' :: writePretty level v
  | (k, v) :: rest =>
    newline level ++ quote k.toList ++ ':' :: ' ' ::
      (writePretty level v ++ ',' :: prettyMembers level rest)
end

/-- A value on one line. -/
def compact (v : Json) : String := String.ofList (writeCompact v)

/-- A value over several lines. -/
def pretty (v : Json) : String := String.ofList (writePretty 0 v)

end Json
end SearchFilter
