/-
# Tokens of a query

A query is cut into tokens without knowing its grammar: parentheses, and words that
reach to the next blank or parenthesis. Inside a word a quoted phrase or a bracketed
range is kept whole, with the blanks and parentheses in it, and a backslash takes
the meaning from the character after it.

| kind | token |
| --- | --- |
| `opening`, `closing` | `(` and `)` |
| `operator` | `AND`, `OR`, `NOT` in any case, `&&`, `\|\|`, `!` |
| `sign` | a lone `+` or `-` |
| `fieldPrefix` | `name:` before a parenthesis |
| `fielded` | any other word with a colon before its first quote or bracket |
| `phrase`, `range` | a word that starts with a quote or a bracket, signs apart |
| `term` | any other word |

The depth of brackets is measured on the same tokens, so that the two never
disagree about quoting.
-/

import SearchFilter.Text.Blank
import SearchFilter.Text.Case

namespace SearchFilter
namespace Query

/-- Where in a word a character stands. -/
inductive Spot where
  | bare
  | phrase
  | range
  | phraseInRange
deriving DecidableEq, Repr

/-- The spot after a character that no backslash precedes. -/
def Spot.next : Spot → Char → Spot
  | .bare, c => if c = '"' then .phrase else if c = '[' ∨ c = '\x7b' then .range else .bare
  | .phrase, c => if c = '"' then .bare else .phrase
  | .range, c => if c = '"' then .phraseInRange else if c = ']' ∨ c = '\x7d' then .bare else .range
  | .phraseInRange, c => if c = '"' then .range else .phraseInRange

/-- Whether a character ends a word. -/
def endsWord (c : Char) : Bool := Text.isBlank c || c == '(' || c == ')'

/-- Cuts a word off the front of a text. -/
def spanWord : Spot → List Char → List Char × List Char
  | _, [] => ([], [])
  | spot, '\\' :: c :: r => let (word, rest) := spanWord spot r; ('\\' :: c :: word, rest)
  | spot, c :: r =>
    if spot = .bare ∧ endsWord c = true then ([], c :: r)
    else let (word, rest) := spanWord (spot.next c) r; (c :: word, rest)

/-- What a token is. -/
inductive Token.Kind where
  | opening
  | closing
  | operator
  | sign
  | fieldPrefix
  | fielded
  | phrase
  | range
  | term
deriving DecidableEq, Repr

/-- A token with its text. -/
structure Token where
  kind : Token.Kind
  text : List Char
deriving DecidableEq, Repr

/-- Whether tokens of this kind count as terms. -/
def Token.Kind.isTerm : Token.Kind → Bool
  | .fielded | .phrase | .range | .term => true
  | _ => false

/-- Whether a word is a boolean operator. -/
def isOperator (word : List Char) : Bool :=
  Text.sameWord word ['A', 'N', 'D'] || Text.sameWord word ['O', 'R'] ||
    Text.sameWord word ['N', 'O', 'T'] || word == ['&', '&'] || word == ['|', '|'] || word == ['!']

/-- What stands after the colon that makes a word fielded: a colon before any quote
or bracket, behind at least one character and behind no backslash. `atStart` says
that no character precedes. -/
def afterColon? : (atStart : Bool) → List Char → Option (List Char)
  | _, [] => none
  | _, '\\' :: _ :: r => afterColon? false r
  | atStart, c :: r =>
    if c = ':' ∧ atStart = false then some r
    else if c = '"' ∨ c = '[' ∨ c = '\x7b' then none
    else afterColon? false r

/-- A leading `+`, `-` or `!` and what follows it. -/
def splitSign : List Char → List Char × List Char
  | c :: r => if c = '+' ∨ c = '-' ∨ c = '!' then ([c], r) else ([], c :: r)
  | [] => ([], [])

/-- The kind of a word in front of the given text. -/
def classify (word rest : List Char) : Token.Kind :=
  if isOperator word then .operator
  else if word = ['+'] ∨ word = ['-'] then .sign
  else
    match afterColon? true word with
    | some value => if value = [] ∧ rest.head? = some '(' then .fieldPrefix else .fielded
    | none =>
      match (splitSign word).2.head? with
      | some '"' => .phrase
      | some '[' => .range
      | some '\x7b' => .range
      | _ => .term

/-- A word and what stands behind it make up the text. -/
theorem spanWord_append (spot : Spot) (s : List Char) :
    (spanWord spot s).1 ++ (spanWord spot s).2 = s := by
  fun_induction spanWord spot s <;> simp_all

/-- Behind a word the text is no longer than before. -/
theorem spanWord_length_le (spot : Spot) (s : List Char) :
    (spanWord spot s).2.length ≤ s.length := by
  have h := congrArg List.length (spanWord_append spot s)
  simp only [List.length_append] at h
  omega

/-- A word that starts at a character which does not end words is not empty. -/
theorem spanWord_length_lt {c : Char} {r : List Char} (h : endsWord c = false) :
    (spanWord .bare (c :: r)).2.length < (c :: r).length := by
  rcases r with _ | ⟨d, r⟩
  · simp [spanWord, h]
  · by_cases hc : c = '\\'
    · subst hc
      have := spanWord_length_le .bare r
      simp [spanWord]; omega
    · rw [spanWord]
      · have := spanWord_length_le (Spot.bare.next c) (d :: r)
        simp [h] at this ⊢
        omega
      · simp_all

/-- The tokens of a text, in order. -/
def tokens : List Char → List Token
  | [] => []
  | c :: r =>
    if Text.isBlank c then tokens r
    else if c = '(' then ⟨.opening, ['(']⟩ :: tokens r
    else if c = ')' then ⟨.closing, [')']⟩ :: tokens r
    else
      let cut := spanWord .bare (c :: r)
      ⟨classify cut.1 cut.2, cut.1⟩ :: tokens cut.2
termination_by s => s.length
decreasing_by
  · simp
  · simp
  · simp
  · exact spanWord_length_lt (by simp_all [endsWord])

/-- The depth of brackets, here and at most so far. -/
structure Depth where
  here : Nat
  most : Nat
deriving DecidableEq, Repr

namespace Depth

/-- One bracket more. -/
def enter (d : Depth) : Depth := ⟨d.here + 1, max d.most (d.here + 1)⟩

/-- One bracket less, where there is one. -/
def leave (d : Depth) : Depth := ⟨d.here - 1, d.most⟩

/-- The depth after one character of a word. -/
def step (d : Depth) : Spot → Char → Depth
  | .bare, c =>
    if c = '[' ∨ c = '\x7b' then d.enter else if c = ']' ∨ c = '\x7d' then d.leave else d
  | .range, c => if c = ']' ∨ c = '\x7d' then d.leave else d
  | _, _ => d

/-- The depth after a word that starts at the given spot. -/
def word : Spot → Depth → List Char → Depth
  | _, d, [] => d
  | spot, d, '\\' :: _ :: r => word spot d r
  | spot, d, c :: r => word (spot.next c) (d.step spot c) r

/-- The depth after a token. -/
def token (d : Depth) (t : Token) : Depth :=
  match t.kind with
  | .opening => d.enter
  | .closing => d.leave
  | _ => word .bare d t.text

/-- The depth after a list of tokens, starting outside all brackets. -/
def ofTokens (ts : List Token) : Depth := ts.foldl token ⟨0, 0⟩

end Depth
end Query
end SearchFilter
