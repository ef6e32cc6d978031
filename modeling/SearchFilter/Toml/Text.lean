/-
# Strings in a TOML text

| marks | lines | backslash |
| --- | --- | --- |
| `"` | one | starts an escape |
| `'` | one | stands for itself |
| `"""` | several | starts an escape, or joins two lines |
| `'''` | several | stands for itself |

In a string over several lines, the end of a line right behind the opening marks is
no part of it, and one or two marks may stand right before the closing ones.
-/

import SearchFilter.Json.Reader

namespace SearchFilter
namespace Toml

/-- The blanks inside a line. -/
def isGap (c : Char) : Bool := c == ' ' || c == '\t'

/-- The text behind the blanks at its front. -/
def skipGap (s : List Char) : List Char := s.dropWhile isGap

/-- A control character that may not stand as it is. -/
def isControl (c : Char) : Bool := (c.toNat < 32 && c != '\t') || c.toNat == 127

/-- The character with a code of some digits of base sixteen. -/
def coded? (digits : Nat) (s : List Char) : Option (Char × List Char) := do
  let ds := s.take digits
  if ds.length < digits then none
  else
    let values ← ds.mapM Json.hexValue?
    let n := values.foldl (fun n d => 16 * n + d) 0
    if n < 0xD800 ∨ (0xE000 ≤ n ∧ n < 0x110000) then some (Char.ofNat n, s.drop digits)
    else none

/-- The character of an escape, behind its backslash. -/
def escaped? : List Char → Option (Char × List Char)
  | [] => none
  | '/' :: _ => none
  | 'e' :: r => some ('\x1b', r)
  | 'x' :: r => coded? 2 r
  | 'u' :: r => coded? 4 r
  | 'U' :: r => coded? 8 r
  | c :: r => (Json.letter? c).map (·, r)

/-- The rest of a string between `"`, gathered in reverse; the number bounds the
characters. -/
def basicFrom? : Nat → List Char → List Char → Option (List Char × List Char)
  | 0, _, _ => none
  | bound + 1, done, s =>
    match s with
    | [] => none
    | '"' :: r => some (done.reverse, r)
    | '\\' :: r => do
      let (c, r) ← escaped? r
      basicFrom? bound (c :: done) r
    | c :: r => if isControl c then none else basicFrom? bound (c :: done) r

/-- A string on one line, between `"` with escapes or between `'` without. -/
def string? : List Char → Option (List Char × List Char)
  | '"' :: r => basicFrom? (r.length + 1) [] r
  | '\'' :: r =>
    match r.dropWhile fun c => c != '\'' && !isControl c with
    | '\'' :: rest => some (r.takeWhile fun c => c != '\'' && !isControl c, rest)
    | _ => none
  | _ => none

/-- The text behind the blanks and the ends of lines at its front. -/
def skipBreaks : List Char → List Char
  | '\r' :: '\n' :: r => skipBreaks r
  | c :: r => if isGap c || c == '\n' then skipBreaks r else c :: r
  | [] => []

/-- Joins two lines: a backslash takes away the end of its line, and all blanks and
ends of lines behind it. -/
def joined? (s : List Char) : Option (List Char) :=
  match skipGap s with
  | '\n' :: r => some (skipBreaks r)
  | '\r' :: '\n' :: r => some (skipBreaks r)
  | _ => none

/-- The rest of a string between three marks, gathered in reverse; the number bounds
the characters. -/
def longFrom? (mark : Char) : Nat → List Char → List Char → Option (List Char × List Char)
  | 0, _, _ => none
  | bound + 1, done, s =>
    match s with
    | [] => none
    | c :: r =>
      if c = mark then
        let marks := s.takeWhile (· == mark)
        let rest := s.dropWhile (· == mark)
        if marks.length < 3 then longFrom? mark bound (marks ++ done) rest
        else if marks.length ≤ 5 then some ((marks.drop 3 ++ done).reverse, rest)
        else none
      else if c = '\\' ∧ mark = '"' then
        match joined? r with
        | some r => longFrom? mark bound done r
        | none => do
          let (c, r) ← escaped? r
          longFrom? mark bound (c :: done) r
      else if c = '\r' then
        match r with
        | '\n' :: r => longFrom? mark bound ('\n' :: '\r' :: done) r
        | _ => none
      else if isControl c ∧ c ≠ '\n' then none
      else longFrom? mark bound (c :: done) r

/-- The text behind the end of a line at its front. -/
def skipBreak : List Char → List Char
  | '\n' :: r => r
  | '\r' :: '\n' :: r => r
  | r => r

/-- A string on one line or several. -/
def text? : List Char → Option (List Char × List Char)
  | '"' :: '"' :: '"' :: r => longFrom? '"' (r.length + 1) [] (skipBreak r)
  | '\'' :: '\'' :: '\'' :: r => longFrom? '\'' (r.length + 1) [] (skipBreak r)
  | s => string? s

/-- Two marks before the closing ones belong to the string. -/
example : text? "\"\"\"\na\\\n  b\"\"\"\"\" #".toList = some ("ab\"\"".toList, " #".toList) := by
  decide +kernel

end Toml
end SearchFilter
