/-
# Expansion of words without a field

A term or a phrase without a field, outside every group that belongs to a field, is
replaced by the alternatives over all implicit fields:

    john        (name:*john* OR email:*john*)
    -"a b"~2    -(name:"a b"~2 OR email:"a b"~2)

A term is put between stars unless it has a wildcard of its own or a fuzzy suffix.
With one implicit field the parentheses are left out, and with none the query stays
as it is. Otherwise the tokens come out with single spaces between them, except
after an opening parenthesis, a sign or a field prefix, and before a closing
parenthesis.
-/

import SearchFilter.Pattern.Like
import SearchFilter.Query.Token

namespace SearchFilter
namespace Query

/-- The inside of a phrase with its closing quote, and what follows it. -/
def spanPhrase : List Char → List Char × List Char
  | [] => ([], [])
  | '\\' :: c :: r => let (inside, rest) := spanPhrase r; ('\\' :: c :: inside, rest)
  | c :: r =>
    if c = '"' then (['"'], r) else let (inside, rest) := spanPhrase r; (c :: inside, rest)

/-- A term up to its first `~` or `^` behind some character, and the rest. -/
def spanCore : (atStart : Bool) → List Char → List Char × List Char
  | _, [] => ([], [])
  | _, '\\' :: c :: r => let (core, rest) := spanCore false r; ('\\' :: c :: core, rest)
  | atStart, c :: r =>
    if atStart = false ∧ (c = '~' ∨ c = '^') then ([], c :: r)
    else let (core, rest) := spanCore false r; (c :: core, rest)

/-- A phrase or term without its sign, cut in front of its suffixes. -/
def splitSuffix (isPhrase : Bool) (body : List Char) : List Char × List Char :=
  match isPhrase, body with
  | true, c :: r => let (inside, rest) := spanPhrase r; (c :: inside, rest)
  | true, [] => ([], [])
  | false, body => spanCore true body

/-- What is searched for in each field. -/
def searched (isPhrase : Bool) (core suffix : List Char) : List Char :=
  if isPhrase || Pattern.hasWildcard core || suffix.head? == some '~' then core
  else '*' :: (core ++ ['*'])

/-- The alternatives of a phrase or term over the fields. -/
def alternatives (fields : List (List Char)) (isPhrase : Bool) (text : List Char) : List Char :=
  let (sign, body) := splitSign text
  let (core, suffix) := splitSuffix isPhrase body
  let value := searched isPhrase core suffix ++ suffix
  match fields.map fun f => f ++ ':' :: value with
  | [one] => sign ++ one
  | many => sign ++ '(' :: ([' ', 'O', 'R', ' '].intercalate many ++ [')'])

/-- A token in the expanded query; `grouped` says that it stands in the group of a
field. -/
def expandToken (fields : List (List Char)) (grouped : Bool) (t : Token) : List Char :=
  match t.kind, grouped with
  | .term, false => alternatives fields false t.text
  | .phrase, false => alternatives fields true t.text
  | _, _ => t.text

/-- Whether a space stands between two tokens of the expanded query. -/
def isSpaced : (left : Option Token.Kind) → (right : Token.Kind) → Bool
  | none, _ => false
  | some _, .closing => false
  | some .opening, _ => false
  | some .sign, _ => false
  | some .fieldPrefix, _ => false
  | _, _ => true

/-- The open groups after a token: for each, whether it belongs to a field. -/
def groupsAfter (left : Option Token.Kind) (groups : List Bool) : Token.Kind → List Bool
  | .opening => (left == some .fieldPrefix) :: groups
  | .closing => groups.tail
  | _ => groups

/-- The expanded text of tokens behind a token and inside of groups. -/
def expandFrom (fields : List (List Char)) :
    (left : Option Token.Kind) → (groups : List Bool) → List Token → List Char
  | _, _, [] => []
  | left, groups, t :: rest =>
    (if isSpaced left t.kind then [' '] else []) ++
      (expandToken fields (groups.contains true) t ++
        expandFrom fields (some t.kind) (groupsAfter left groups t.kind) rest)

/-- The query with every word that has no field spread over the given fields. -/
def expand (fields : List String) (query : String) : String :=
  if fields.isEmpty then query
  else String.ofList (expandFrom (fields.map String.toList) none [] (tokens query.toList))

/-- Without implicit fields a query stays as it is. -/
theorem expand_nil (query : String) : expand [] query = query := rfl

/-- A body and its suffix make up the word. -/
theorem splitSuffix_append (isPhrase : Bool) (body : List Char) :
    (splitSuffix isPhrase body).1 ++ (splitSuffix isPhrase body).2 = body := by
  have hp : ∀ s : List Char, (spanPhrase s).1 ++ (spanPhrase s).2 = s := by
    intro s; fun_induction spanPhrase s <;> simp_all
  have hc : ∀ b (s : List Char), (spanCore b s).1 ++ (spanCore b s).2 = s := by
    intro b s; fun_induction spanCore b s <;> simp_all
  cases isPhrase
  · exact hc true body
  · cases body with
    | nil => rfl
    | cons c r => simp [splitSuffix, hp]

end Query
end SearchFilter
